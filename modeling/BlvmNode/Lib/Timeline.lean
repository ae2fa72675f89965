import Mathlib.Logic.Relation
import Mathlib.Tactic

/-!
# Version timelines of one key

A timeline is the list of create (`isAdd`) and remove records of one key, newest first. A reader at
a height `before` sees the newest record strictly below it. Garbage collection drops a remove record
with the create record just below it.
-/

namespace Timeline

/-- Records that carry a height and are either a creation or a removal. -/
class Versioned (E : Type*) where
  height : E → ℤ
  isAdd : E → Bool

open Versioned List

variable {E : Type*} [Versioned E]

def newest (before : ℤ) (l : List E) : Option E :=
  l.find? (fun e => decide (height e < before))

def live (before : ℤ) (l : List E) : Option E :=
  (newest before l).filter isAdd

def Descending (l : List E) : Prop :=
  l.Pairwise (fun a b => height b < height a)

def headIsAdd (l : List E) : Bool :=
  l.head?.any isAdd

/-- Creations and removals alternate, and the oldest record is a creation. -/
def Alternating : List E → Prop
  | [] => True
  | e :: l => isAdd e = !headIsAdd l ∧ Alternating l

instance decidableDescending (l : List E) : Decidable (Descending l) :=
  inferInstanceAs (Decidable (List.Pairwise _ l))

instance decidableAlternating : (l : List E) → Decidable (Alternating l)
  | [] => isTrue trivial
  | _ :: l =>
    have := decidableAlternating l
    inferInstanceAs (Decidable (_ ∧ _))

variable {before : ℤ} {l : List E} {e : E} {a d : E}

@[simp] theorem newest_nil (before : ℤ) : newest before ([] : List E) = none := rfl

theorem newest_cons (before : ℤ) (e : E) (l : List E) :
    newest before (e :: l) = if height e < before then some e else newest before l := by
  by_cases h : height e < before <;> simp [newest, h]

theorem newest_append (before : ℤ) (l m : List E) :
    newest before (l ++ m) = (newest before l).or (newest before m) := by
  simp [newest, find?_append]

theorem mem_of_newest (h : newest before l = some e) : e ∈ l := mem_of_find?_eq_some h

theorem height_lt_of_newest (h : newest before l = some e) : height e < before := by
  simpa using find?_some h

theorem newest_eq_none_iff : newest before l = none ↔ ∀ e ∈ l, before ≤ height e := by
  simp [newest]

theorem newest_eq_head (h : ∀ e ∈ l, height e < before) : newest before l = l.head? := by
  cases l with
  | nil => rfl
  | cons e l =>
    rw [newest_cons, if_pos (h e mem_cons_self), head?_cons]

@[simp] theorem live_nil (before : ℤ) : live before ([] : List E) = none := rfl

theorem live_cons (before : ℤ) (e : E) (l : List E) :
    live before (e :: l) =
      if height e < before then (if isAdd e then some e else none) else live before l := by
  unfold live
  rw [newest_cons]
  by_cases h : height e < before
  · by_cases ha : isAdd e <;> simp [h, ha]
  · simp [h]

theorem mem_of_live (h : live before l = some e) : e ∈ l ∧ isAdd e ∧ height e < before := by
  unfold live at h
  rw [Option.filter_eq_some_iff] at h
  exact ⟨mem_of_newest h.1, h.2, height_lt_of_newest h.1⟩

@[simp] theorem headIsAdd_nil : headIsAdd ([] : List E) = false := rfl

@[simp] theorem headIsAdd_cons (e : E) (l : List E) : headIsAdd (e :: l) = isAdd e := rfl

@[simp] theorem alternating_nil : Alternating ([] : List E) := trivial

@[simp] theorem alternating_cons (e : E) (l : List E) :
    Alternating (e :: l) ↔ isAdd e = !headIsAdd l ∧ Alternating l := Iff.rfl

theorem alternating_right {p : List E} (h : Alternating (p ++ l)) : Alternating l := by
  induction p with
  | nil => exact h
  | cons e p ih => exact ih h.2

theorem descending_right {p : List E} (h : Descending (p ++ l)) : Descending l :=
  (pairwise_append.mp h).2.1

theorem descending_left {p : List E} (h : Descending (p ++ l)) : Descending p :=
  (pairwise_append.mp h).1

theorem Descending.sublist {m : List E} (h : Descending l) (hs : m.Sublist l) :
    Descending m := Pairwise.sublist hs h

/-- In descending order the newest visible record lies above every other visible one. -/
theorem height_le_of_newest (hd : Descending l) (h : newest before l = some a) (hmem : d ∈ l)
    (hlt : height d < before) : height d ≤ height a := by
  obtain ⟨-, pre, post, rfl, hpre⟩ := find?_eq_some_iff_append.mp h
  rcases mem_append.mp hmem with hmem | hmem
  · exact absurd (hpre d hmem) (by simpa using hlt)
  · rcases mem_cons.mp hmem with rfl | hmem
    · exact le_rfl
    · exact (rel_of_pairwise_cons (descending_right hd) hmem).le

theorem newest_of_live (h : live before l = some a) :
    newest before l = some a := (Option.filter_eq_some_iff.mp h).1

theorem live_eq_none_of_headDelete
    (hv : ∀ e ∈ l, height e < before) (hh : headIsAdd l = false) : live before l = none := by
  cases l with
  | nil => rfl
  | cons e l =>
    rw [live_cons, if_pos (hv e mem_cons_self)]
    simp only [headIsAdd_cons] at hh
    simp [hh]

def NoDoubleRemoval (l : List E) : Prop :=
  l.IsChain (fun a b => isAdd a = false → isAdd b = true)

theorem Alternating.noDoubleRemoval (h : Alternating l) : NoDoubleRemoval l := by
  induction l with
  | nil => exact IsChain.nil
  | cons e l ih =>
    cases l with
    | nil => exact isChain_singleton e
    | cons a l =>
      refine isChain_cons_cons.mpr ⟨fun he => ?_, ih h.2⟩
      have := h.1
      rw [he, headIsAdd_cons] at this
      simpa using this.symm

theorem NoDoubleRemoval.infix {p q : List E} (h : NoDoubleRemoval (p ++ l ++ q)) :
    NoDoubleRemoval l :=
  IsChain.infix h ⟨p, q, rfl⟩

/-- One garbage collection: a removal below `bound` leaves with the creation under it. -/
inductive CancelStep (bound : ℤ) : List E → List E → Prop
  | pair (p q : List E) (d a : E) (hd : isAdd d = false) (ha : isAdd a = true)
      (hb : height d < bound) : CancelStep bound (p ++ d :: a :: q) (p ++ q)

def Cancels (bound : ℤ) : List E → List E → Prop :=
  Relation.ReflTransGen (CancelStep bound)

namespace Cancels

variable {bound : ℤ} {l m : List E} {bound' : ℤ}

theorem refl (l : List E) : Cancels bound l l := Relation.ReflTransGen.refl

theorem trans {n : List E} (h : Cancels bound l m) (h' : Cancels bound m n) :
    Cancels bound l n := Relation.ReflTransGen.trans h h'

theorem context (p q : List E) (h : Cancels bound l m) :
    Cancels bound (p ++ l ++ q) (p ++ m ++ q) := by
  induction h with
  | refl => exact refl _
  | tail _ hs ih =>
    obtain ⟨r, s, d, a, hd, ha, hb⟩ := hs
    refine ih.tail ?_
    have hstep := CancelStep.pair (p ++ r) (s ++ q) d a hd ha hb
    simpa only [append_assoc, cons_append] using hstep

theorem append {l' m' : List E} (h : Cancels bound l m) (h' : Cancels bound l' m') :
    Cancels bound (l ++ l') (m ++ m') := by
  have h₁ := h.context [] l'
  have h₂ := h'.context m []
  simp only [nil_append, append_nil] at h₁ h₂
  exact h₁.trans h₂

theorem pair (d a : E) (hd : isAdd d = false) (ha : isAdd a) (hb : height d < bound)
    (h : Cancels bound l m) : Cancels bound (d :: a :: l) m :=
  Relation.ReflTransGen.head (CancelStep.pair [] l d a hd ha hb) h

theorem mono (hb : bound ≤ bound') (h : Cancels bound l m) : Cancels bound' l m := by
  induction h with
  | refl => exact refl _
  | tail _ hs ih =>
    obtain ⟨r, s, d, a, hd, ha, hlt⟩ := hs
    exact ih.tail (.pair r s d a hd ha (lt_of_lt_of_le hlt hb))

theorem sublist (h : Cancels bound l m) : m.Sublist l := by
  induction h with
  | refl => exact Sublist.refl _
  | tail _ hs ih =>
    obtain ⟨r, s, d, a, -, -, -⟩ := hs
    refine Sublist.trans ?_ ih
    exact Sublist.append_left ((sublist_cons_self a s).cons d) r

theorem of_heights (h : Cancels bound l m) (hl : ∀ e ∈ l, height e < bound') :
    Cancels bound' l m := by
  induction h with
  | refl => exact refl _
  | tail hr hs ih =>
    obtain ⟨r, s, d, a, hd, ha, -⟩ := hs
    have hmem : d ∈ r ++ d :: a :: s := by simp
    exact ih.tail (.pair r s d a hd ha (hl d ((sublist hr).subset hmem)))

end Cancels

variable {bound : ℤ} {l m : List E} {p l m : List E}

theorem headIsAdd_append_congr (h : headIsAdd l = headIsAdd m) :
    headIsAdd (p ++ l) = headIsAdd (p ++ m) := by
  cases p with
  | nil => exact h
  | cons e p => rfl

theorem headIsAdd_of_pair {q : List E} (ha : isAdd a) (hd : isAdd d = false)
    (h : Alternating (d :: a :: q)) : headIsAdd q = headIsAdd (d :: a :: q) := by
  have haq := h.2.1
  rw [ha] at haq
  simp only [headIsAdd_cons, hd]
  simpa using haq.symm

theorem alternating_append_congr (hh : headIsAdd l = headIsAdd m)
    (hm : Alternating m) (h : Alternating (p ++ l)) : Alternating (p ++ m) := by
  induction p with
  | nil => exact hm
  | cons e p ih =>
    rw [cons_append, alternating_cons] at h ⊢
    rw [← headIsAdd_append_congr (p := p) hh]
    exact ⟨h.1, ih h.2⟩

open Timeline

theorem CancelStep.alternating (hs : CancelStep bound l m) (h : Alternating l) : Alternating m := by
  obtain ⟨p, q, d, a, hd, ha, -⟩ := hs
  have hsuf := alternating_right h
  exact alternating_append_congr (headIsAdd_of_pair ha hd hsuf).symm hsuf.2.2 h

theorem live_append_congr (h : live before l = live before m) :
    live before (p ++ l) = live before (p ++ m) := by
  induction p with
  | nil => exact h
  | cons e p ih => simp only [cons_append, live_cons, ih]

theorem CancelStep.live (hs : CancelStep bound l m) (ha : Alternating l) (hd : Descending l)
    (hb : bound ≤ before) : Timeline.live before m = Timeline.live before l := by
  obtain ⟨p, q, d, a, hdel, hadd, hlt⟩ := hs
  refine live_append_congr ?_
  have hsuf := descending_right hd
  have hvis : ∀ e ∈ q, height e < before := by
    intro e he
    have := rel_of_pairwise_cons hsuf (mem_cons_of_mem a he)
    omega
  have hq : Timeline.headIsAdd q = false := by
    rw [headIsAdd_of_pair hadd hdel (alternating_right ha), headIsAdd_cons, hdel]
  rw [live_eq_none_of_headDelete hvis hq, live_cons, if_pos (by omega), hdel]
  rfl

theorem Cancels.descending (h : Cancels bound l m)
    (hd : Descending l) : Descending m := hd.sublist h.sublist

theorem Cancels.alternating (h : Cancels bound l m) (ha : Alternating l) : Alternating m := by
  induction h with
  | refl => exact ha
  | tail _ hs ih => exact hs.alternating ih

open Cancels

theorem Cancels.live (h : Cancels bound l m) (ha : Alternating l) (hd : Descending l)
    (hb : bound ≤ before) : live before m = live before l := by
  induction h with
  | refl => rfl
  | tail hr hs ih =>
    rw [hs.live (alternating hr ha) (descending hr hd) hb, ih]

def visible (before : ℤ) (l : List E) : List E := l.filter (fun e => decide (height e < before))

variable {before : ℤ} {l : List E}

theorem visible_append (before : ℤ) (l m : List E) :
    visible before (l ++ m) = visible before l ++ visible before m :=
  filter_append ..

theorem newest_visible (before since : ℤ) (l : List E) :
    newest before (visible since l) = newest (min before since) l := by
  simp only [newest, visible, find?_filter, decide_eq_true_eq, lt_min_iff, and_comm]

theorem visible_eq_nil (h : newest before l = none) : visible before l = [] := by
  rw [newest_eq_none_iff] at h
  simpa [visible] using h

@[simp] theorem live_visible (before : ℤ) (l : List E) :
    live before (visible before l) = live before l := by
  induction l with
  | nil => rfl
  | cons e l ih =>
    by_cases h : height e < before
    · simp [visible, live_cons, h]
    · simpa [visible, live_cons, h] using ih

/-- In descending order the visible records are the oldest ones. -/
theorem exists_append_visible (before : ℤ) (hd : Descending l) :
    ∃ p, l = p ++ visible before l := by
  induction l with
  | nil => exact ⟨[], rfl⟩
  | cons e l ih =>
    by_cases h : height e < before
    · refine ⟨[], ?_⟩
      rw [nil_append, visible, filter_eq_self.mpr]
      intro x hx
      rcases mem_cons.mp hx with rfl | hx
      · simpa using h
      · have := rel_of_pairwise_cons hd hx
        simp only [decide_eq_true_eq]
        omega
    · obtain ⟨p, hp⟩ := ih (Pairwise.of_cons hd)
      refine ⟨e :: p, ?_⟩
      have hskip : visible before (e :: l) = visible before l := by simp [visible, h]
      rw [hskip, cons_append, ← hp]

theorem Descending.visible (hd : Descending l) :
    Descending (visible before l) :=
  hd.sublist filter_sublist

/-- Collected pairs lie below the bound, so a reader above it sees both of their records. -/
theorem Cancels.visible (h : Cancels bound l m) (hd : Descending l) (hb : bound ≤ before) :
    Cancels bound (Timeline.visible before l) (Timeline.visible before m) := by
  induction h with
  | refl => exact refl _
  | tail hr hs ih =>
    have hmid := descending hr hd
    refine trans ih ?_
    obtain ⟨p, q, d, a, hdel, hadd, hlt⟩ := hs
    have hda : height a < height d :=
      rel_of_pairwise_cons (descending_right hmid) mem_cons_self
    have hpair : Timeline.visible before (d :: a :: q) =
        d :: a :: Timeline.visible before q := by
      have hvd : height d < before := by omega
      have hva : height a < before := by omega
      simp [Timeline.visible, hvd, hva]
    rw [visible_append, visible_append, hpair]
    exact Relation.ReflTransGen.single (CancelStep.pair _ _ d a hdel hadd hlt)

theorem Descending.eq_of_perm (hl : Descending l) (hm : Descending m) (hp : l.Perm m) : l = m := by
  refine Perm.eq_of_pairwise ?_ hl hm hp
  intro a b _ _ hab hba
  omega

/-- As long as nothing of the front and of `kept` is visible, collecting garbage on `sel` alone
changes nothing for the reader. -/
theorem live_collected_of_invisible {front mid sel kept old surv : List E}
    (hd : Descending (front ++ mid ++ old)) (ha : Alternating (front ++ mid ++ old))
    (hp : mid.Perm (sel ++ kept)) (hsub : sel.Sublist mid) (hc : Cancels bound sel surv)
    (hb : bound ≤ before) (hf : newest before front = none) (hk : newest before kept = none) :
    live before (surv ++ old) = live before (front ++ mid ++ old) := by
  have hsel : Descending (sel ++ old) := by
    rw [append_assoc] at hd
    exact (descending_right hd).sublist (hsub.append_right old)
  have hvis : visible before (front ++ mid ++ old) =
      visible before (sel ++ old) := by
    refine Descending.eq_of_perm hd.visible hsel.visible ?_
    have hmid : (visible before mid).Perm (visible before sel) := by
      have := hp.filter (fun e => decide (height e < before))
      rw [filter_append] at this
      have hnil : kept.filter (fun e => decide (height e < before)) = [] := visible_eq_nil hk
      rwa [hnil, append_nil] at this
    simp only [visible_append, visible_eq_nil hf, nil_append]
    exact hmid.append_right _
  have halt : Alternating (visible before (sel ++ old)) := by
    obtain ⟨p, hp⟩ := exists_append_visible before hd
    rw [hp, hvis] at ha
    exact alternating_right ha
  have hcancels := Cancels.visible (hc.append (Cancels.refl old)) hsel hb
  rw [← live_visible, hcancels.live halt hsel.visible hb, ← hvis, live_visible]

theorem isSome_live_eq_headIsAdd (hv : ∀ e ∈ l, height e < before) :
    (live before l).isSome = headIsAdd l := by
  cases l with
  | nil => rfl
  | cons e l =>
    rw [live_cons, if_pos (hv e mem_cons_self), headIsAdd_cons]
    cases isAdd e <;> rfl

/-- In an alternating timeline, what readers find changes exactly at the heights of the
records. -/
theorem exists_height_iff (ha : Alternating l) (hd : Descending l) (h : ℤ) :
    (∃ e ∈ l, height e = h) ↔ (live h l).isSome ≠ (live (h + 1) l).isSome := by
  induction l with
  | nil => simp
  | cons e l ih =>
    have hbelow : ∀ x ∈ l, height x < height e := fun x hx => rel_of_pairwise_cons hd hx
    rw [exists_mem_cons_iff, live_cons, live_cons]
    rcases lt_trichotomy (height e) h with hlt | heq | hgt
    · have hlt' : height e < h + 1 := by omega
      rw [if_pos hlt, if_pos hlt']
      apply iff_of_false
      · rintro (heq | ⟨x, hx, heq⟩)
        · omega
        · have := hbelow x hx
          omega
      · exact fun hne => hne rfl
    · have hlt' : height e < h + 1 := by omega
      rw [if_neg heq.not_lt, if_pos hlt']
      apply iff_of_true (.inl heq)
      rw [isSome_live_eq_headIsAdd (fun x hx => by rw [← heq]; exact hbelow x hx), ha.1]
      cases headIsAdd l <;> simp
    · have hge : ¬ height e < h + 1 := by omega
      rw [if_neg hgt.not_gt, if_neg hge, ← ih ha.2 (Pairwise.of_cons hd)]
      constructor
      · rintro (heq | hx)
        · omega
        · exact hx
      · exact Or.inr

theorem Cancels.eq_of_bound (h : Cancels bound l m) (hb : ∀ e ∈ l, bound ≤ height e) : m = l := by
  induction h with
  | refl => rfl
  | tail _ hs ih =>
    rw [ih] at hs
    obtain ⟨p, q, d, a, -, -, hlt⟩ := hs
    have := hb d (by simp)
    omega

end Timeline
