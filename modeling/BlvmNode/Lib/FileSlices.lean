import Mathlib.Data.List.Basic

/-!
# Reading and writing a file by position

A file is a list. A write puts data at a position, over what is there and with padding where
the file is too short; a read takes a slice. A slice is what was written there last, and a
write beside it does not change it.
-/

namespace FileSlices

open List

variable {α : Type*} {file : List α} {pos len : ℕ} (pad : α)

def slice (file : List α) (pos len : ℕ) : List α := (file.drop pos).take len

def overwrite (pad : α) (file : List α) (pos : ℕ) (data : List α) : List α :=
  file.take pos ++ List.replicate (pos - file.length) pad ++ data ++
    file.drop (pos + data.length)

theorem length_slice (h : pos + len ≤ file.length) : (slice file pos len).length = len := by
  rw [slice, length_take, length_drop]
  omega

theorem slice_slice {pos' len' : ℕ} (h : pos' + len' ≤ len) :
    slice (slice file pos len) pos' len' = slice file (pos + pos') len' := by
  rw [slice, slice, slice, drop_take, take_take, drop_drop]
  congr 1
  omega

theorem slice_append_middle (front data back : List α) :
    slice (front ++ (data ++ back)) front.length data.length = data := by
  rw [slice, drop_left, take_left]

theorem getElem?_slice (file : List α) (pos len i : ℕ) :
    (slice file pos len)[i]? = if i < len then file[pos + i]? else none := by
  rw [slice, getElem?_take, getElem?_drop]

theorem getElem?_overwrite (file : List α) (pos : ℕ) (data : List α) (i : ℕ) :
    (overwrite pad file pos data)[i]? = if i < pos then some (file[i]?.getD pad)
      else if i < pos + data.length then data[i - pos]? else file[i]? := by
  have hfront : (file.take pos ++ replicate (pos - file.length) pad).length = pos := by
    rw [length_append, length_take, length_replicate]
    omega
  rw [overwrite, append_assoc]
  by_cases hi : i < pos
  · rw [if_pos hi, getElem?_append_left (by omega)]
    by_cases hfile : i < file.length
    · rw [getElem?_append_left (by rw [length_take]; omega), getElem?_take,
        if_pos hi, getElem?_eq_getElem hfile, Option.getD_some]
    · rw [getElem?_append_right (by rw [length_take]; omega), getElem?_replicate,
        if_pos (by rw [length_take]; omega), getElem?_eq_none (Nat.le_of_not_lt hfile),
        Option.getD_none]
  · rw [if_neg hi, getElem?_append_right (by omega), hfront]
    by_cases hdata : i < pos + data.length
    · rw [if_pos hdata, getElem?_append_left (by omega)]
    · rw [if_neg hdata, getElem?_append_right (by omega), getElem?_drop]
      congr 1
      omega

theorem slice_overwrite_self (file : List α) (pos : ℕ) (data : List α) :
    slice (overwrite pad file pos data) pos data.length = data := by
  apply ext_getElem?
  intro i
  rw [getElem?_slice, getElem?_overwrite]
  by_cases hi : i < data.length
  · rw [if_pos hi, if_neg (by omega), if_pos (by omega), Nat.add_sub_cancel_left]
  · rw [if_neg hi, getElem?_eq_none (Nat.le_of_not_lt hi)]

theorem slice_overwrite_of_disjoint {data : List α} (h : slice file pos data.length = data)
    {pos' : ℕ} {data' : List α} (hdisjoint : pos + data.length ≤ pos' ∨ pos' + data'.length ≤ pos) :
    slice (overwrite pad file pos' data') pos data.length = data := by
  apply ext_getElem?
  intro i
  rw [getElem?_slice]
  by_cases hi : i < data.length
  · have hfile : file[pos + i]? = data[i]? := by
      have hslice := getElem?_slice file pos data.length i
      rw [h, if_pos hi] at hslice
      exact hslice.symm
    rw [if_pos hi, getElem?_overwrite, hfile, getElem?_eq_getElem hi, Option.getD_some]
    rcases hdisjoint with hbefore | hafter
    · rw [if_pos (by omega)]
    · rw [if_neg (by omega), if_neg (by omega)]
  · rw [if_neg hi, getElem?_eq_none (Nat.le_of_not_lt hi)]

theorem length_overwrite (file : List α) (pos : ℕ) (data : List α) :
    (overwrite pad file pos data).length = max file.length (pos + data.length) := by
  simp only [overwrite, length_append, length_take, length_replicate, length_drop]
  omega

end FileSlices
