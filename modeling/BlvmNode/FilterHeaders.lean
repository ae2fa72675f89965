import BlvmNode.Lib.GuardedRun
import BlvmNode.Lib.KeyTable

/-!
# The chain of compact block filter headers

Filter headers sit in an array by height that requests fill in any order. A filter for a height
above the end of the array fills the gap with its own header, and a filter for a height below the
end leaves the headers above it as they are.
-/

namespace BlvmNode

open List Function

structure FilterHeader (H : Type) where
  filterHash : H
  prevHeaderHash : H
  deriving DecidableEq

/-- What the protocol crate computes. -/
structure FilterRules (S F H : Type) where
  buildBlockFilterOutputScripts : H → List S → List S → Except String F
  newHeader : F → Option (FilterHeader H) → FilterHeader H
  filterHash : F → H
  headerHash : FilterHeader H → H
  zeroHash : H

structure BlockFilterService (F H : Type) where
  filters : KeyTable H F
  filterHeaders : List (FilterHeader H)
  blockHashToHeight : KeyTable H ℕ
  currentHeight : ℕ

open BlockFilterService

section Service

variable {S F H : Type}

namespace FilterRules

/-- The header of a filter over the one below; there is nothing below the first. -/
def bip157Header (rules : FilterRules S F H) (filter : F) (prev : Option (FilterHeader H)) :
    FilterHeader H :=
  ⟨rules.filterHash filter, (prev.map rules.headerHash).getD rules.zeroHash⟩

/-- `FilterHeader::new` makes the header of BIP157. -/
def MakesBip157Headers (rules : FilterRules S F H) : Prop :=
  ∀ filter prev, rules.newHeader filter prev = rules.bip157Header filter prev

end FilterRules

def resizeList {α : Type} (l : List α) (n : ℕ) (a : α) : List α :=
  l.take n ++ List.replicate (n - l.length) a

namespace BlockFilterService

def new : BlockFilterService F H := ⟨.empty, [], .empty, 0⟩

def getPrevFilterHeader (svc : BlockFilterService F H) (height : ℕ) : Option (FilterHeader H) :=
  if height = 0 then none else svc.filterHeaders[height - 1]?

def storeHeader (headers : List (FilterHeader H)) (height : ℕ) (header : FilterHeader H) :
    List (FilterHeader H) :=
  if headers.length % 2 ^ 32 ≤ height then resizeList headers ((height + 1) % 2 ^ 32) header
  else headers.set height header

variable [DecidableEq H]

def generateAndCacheFilterForScripts (rules : FilterRules S F H) (svc : BlockFilterService F H)
    (outputScripts previousOutpointScripts : List S) (blockHash : H) (height : ℕ) :
    Except String F × BlockFilterService F H :=
  match rules.buildBlockFilterOutputScripts blockHash outputScripts previousOutpointScripts with
  | .error e => (.error ("Failed to build filter: " ++ e), svc)
  | .ok filter =>
    let header := rules.newHeader filter (svc.getPrevFilterHeader height)
    (.ok filter,
      { filters := svc.filters.insert blockHash filter
        filterHeaders := storeHeader svc.filterHeaders height header
        blockHashToHeight := svc.blockHashToHeight.insert blockHash height
        currentHeight := max height svc.currentHeight })

def removeFilterForPrunedBlock (svc : BlockFilterService F H) (blockHash : H) :
    BlockFilterService F H :=
  { svc with filters := svc.filters.erase blockHash }

end BlockFilterService

end Service

structure FilterSystem (F H : Type) where
  service : BlockFilterService F H
  generated : ℕ → Option F

inductive FilterStep (S H : Type)
  | generate (outputScripts previousOutpointScripts : List S) (blockHash : H) (height : ℕ)
  | prune (blockHash : H)

def FilterStep.InRange {S H : Type} : FilterStep S H → Prop
  | .generate _ _ _ height => height + 1 < 2 ^ 32
  | .prune _ => True

namespace FilterSystem

variable {S F H : Type} [DecidableEq H] (rules : FilterRules S F H)

def opened : FilterSystem F H := ⟨.new, fun _ => none⟩

def step (sys : FilterSystem F H) : FilterStep S H → FilterSystem F H
  | .generate outputs spent blockHash height =>
    let res := sys.service.generateAndCacheFilterForScripts rules outputs spent blockHash height
    match res.1 with
    | .error _ => { sys with service := res.2 }
    | .ok filter => ⟨res.2, Function.update sys.generated height (some filter)⟩
  | .prune blockHash => { sys with service := sys.service.removeFilterForPrunedBlock blockHash }

/-- The header at a height is that of the filter generated there last, chained to the one below. -/
def Committed (sys : FilterSystem F H) : Prop :=
  ∀ h header, sys.service.filterHeaders[h]? = some header →
    ∃ filter, sys.generated h = some filter ∧
      header = rules.bip157Header filter (sys.service.getPrevFilterHeader h)

/-- The filter continues the array, or the header above already names the header it gets. -/
def Continues (sys : FilterSystem F H) : FilterStep S H → Prop
  | .generate outputs spent blockHash height =>
    ∀ filter, rules.buildBlockFilterOutputScripts blockHash outputs spent = .ok filter →
      height ≤ sys.service.filterHeaders.length ∧
      ∀ above, sys.service.filterHeaders[height + 1]? = some above → above.prevHeaderHash =
        rules.headerHash (rules.newHeader filter (sys.service.getPrevFilterHeader height))
  | .prune _ => True

/-- Filters are generated below the end of the array only, and its length is a `u32`. -/
structure Covered (sys : FilterSystem F H) : Prop where
  within : ∀ h, (sys.generated h).isSome = true → h < sys.service.filterHeaders.length
  length : sys.service.filterHeaders.length < 2 ^ 32

end FilterSystem

namespace BlockFilterService

variable {F H : Type}

variable {headers : List (FilterHeader H)} {height : ℕ}

theorem storeHeader_eq (hlength : headers.length < 2 ^ 32) (hheight : height + 1 < 2 ^ 32)
    (header : FilterHeader H) : storeHeader headers height header =
      if headers.length ≤ height then resizeList headers (height + 1) header
      else headers.set height header := by
  rw [storeHeader, Nat.mod_eq_of_lt hlength, Nat.mod_eq_of_lt hheight]

theorem length_storeHeader_lt (hlength : headers.length < 2 ^ 32) (hheight : height + 1 < 2 ^ 32)
    (header : FilterHeader H) : (storeHeader headers height header).length < 2 ^ 32 := by
  rw [storeHeader_eq hlength hheight]
  split_ifs
  · rw [resizeList, length_append, length_take, length_replicate]
    omega
  · rwa [length_set]

theorem getElem?_storeHeader (hlength : headers.length < 2 ^ 32) (hheight : height + 1 < 2 ^ 32)
    (header : FilterHeader H) (h : ℕ) : (storeHeader headers height header)[h]? =
      if h = height ∨ headers.length ≤ h ∧ h < height then some header else headers[h]? := by
  rw [storeHeader_eq hlength hheight]
  split_ifs with hend hnew hnew
  · rw [resizeList, take_of_length_le (by omega), getElem?_append,
      getElem?_replicate]
    split_ifs <;> first | rfl | omega
  · rw [resizeList, take_of_length_le (by omega), getElem?_append,
      getElem?_replicate]
    split_ifs with hold hgap
    · rfl
    · omega
    · exact (getElem?_eq_none (by omega)).symm
  · have heq : h = height := by omega
    rw [heq, getElem?_set_self (by omega)]
  · rw [getElem?_set_ne (by omega)]

end BlockFilterService

namespace FilterSystem

variable {S F H : Type} [DecidableEq H] {rules : FilterRules S F H} {sys : FilterSystem F H}

theorem step_cases (rules : FilterRules S F H) (sys : FilterSystem F H) (s : FilterStep S H) :
    ((sys.step rules s).service.filterHeaders = sys.service.filterHeaders ∧
      (sys.step rules s).generated = sys.generated ∧ sys.Continues rules s) ∨
    ∃ outputs spent blockHash height filter, s = .generate outputs spent blockHash height ∧
      rules.buildBlockFilterOutputScripts blockHash outputs spent = .ok filter ∧
      (sys.step rules s).service.filterHeaders = storeHeader sys.service.filterHeaders height
        (rules.newHeader filter (sys.service.getPrevFilterHeader height)) ∧
      (sys.step rules s).generated = update sys.generated height (some filter) := by
  cases s with
  | prune blockHash => exact .inl ⟨rfl, rfl, trivial⟩
  | generate outputs spent blockHash height =>
    cases hbuild : rules.buildBlockFilterOutputScripts blockHash outputs spent with
    | error e =>
      left
      simp only [step, generateAndCacheFilterForScripts, hbuild, Continues,
        reduceCtorEq, false_implies, implies_true, and_self]
    | ok filter =>
      right
      refine ⟨outputs, spent, blockHash, height, filter, rfl, hbuild, ?_, ?_⟩ <;>
        simp only [step, generateAndCacheFilterForScripts, hbuild]

theorem Covered.step (hsys : sys.Covered) {s : FilterStep S H} (hs : s.InRange) :
    (sys.step rules s).Covered := by
  rcases sys.step_cases rules s with ⟨hheaders, hgenerated, _⟩ |
    ⟨_, _, _, height, filter, rfl, _, hheaders, hgenerated⟩
  · constructor
    · rw [hheaders, hgenerated]
      exact hsys.within
    · rw [hheaders]
      exact hsys.length
  · refine ⟨fun h hh => ?_, hheaders ▸ length_storeHeader_lt hsys.length hs _⟩
    by_contra hend
    have hnone := getElem?_eq_none (Nat.le_of_not_lt hend)
    rw [hheaders, getElem?_storeHeader hsys.length hs] at hnone
    by_cases hat : h = height
    · rw [if_pos (.inl hat)] at hnone
      cases hnone
    · rw [hgenerated, update_of_ne hat] at hh
      have hlt := hsys.within h hh
      rw [if_neg (by omega), getElem?_eq_getElem hlt] at hnone
      cases hnone

theorem prev_storeHeader {headers : List (FilterHeader H)} {height : ℕ} {header : FilterHeader H}
    {svc svc' : BlockFilterService F H} (hold : svc.filterHeaders = headers)
    (hnew : svc'.filterHeaders = storeHeader headers height header)
    (hlength : headers.length < 2 ^ 32) (hrange : height + 1 < 2 ^ 32)
    (hheight : height ≤ headers.length) (h : ℕ) :
    svc'.getPrevFilterHeader h =
      if h = height + 1 then some header else svc.getPrevFilterHeader h := by
  unfold getPrevFilterHeader
  rw [hnew, hold, getElem?_storeHeader hlength hrange]
  split_ifs <;> first | rfl | omega

theorem Committed.step_iff (hmakes : rules.MakesBip157Headers) (hsys : sys.Committed rules)
    (hcovered : sys.Covered) {s : FilterStep S H} (hs : s.InRange) :
    (sys.step rules s).Committed rules ↔ sys.Continues rules s := by
  rcases sys.step_cases rules s with ⟨hheaders, hgenerated, hcontinues⟩ |
    ⟨outputs, spent, blockHash, height, filter, rfl, hbuild, hheaders, hgenerated⟩
  · refine iff_of_true ?_ hcontinues
    unfold Committed getPrevFilterHeader
    rw [hheaders, hgenerated]
    exact hsys
  · constructor
    · intro hafter other hother
      obtain rfl : filter = other := Except.ok.inj (hbuild.symm.trans hother)
      -- no filter was generated in a gap
      have hheight : height ≤ sys.service.filterHeaders.length := by
        by_contra hgap
        have hget := getElem?_storeHeader hcovered.length hs
          (rules.newHeader filter (sys.service.getPrevFilterHeader height))
          sys.service.filterHeaders.length
        rw [if_pos (.inr ⟨le_rfl, by omega⟩), ← hheaders] at hget
        obtain ⟨made, hmade, _⟩ := hafter _ _ hget
        rw [hgenerated, update_of_ne (by omega)] at hmade
        exact (hcovered.within _ (by rw [hmade, Option.isSome_some])).false
      refine ⟨hheight, fun above habove => ?_⟩
      have hget := getElem?_storeHeader hcovered.length hs
        (rules.newHeader filter (sys.service.getPrevFilterHeader height)) (height + 1)
      rw [if_neg (by omega), habove, ← hheaders] at hget
      obtain ⟨made, _, hnew⟩ := hafter _ _ hget
      rw [prev_storeHeader rfl hheaders hcovered.length hs hheight, if_pos rfl] at hnew
      rw [hnew]
      rfl
    · intro hcontinues h header hget
      obtain ⟨hheight, habove⟩ := hcontinues filter hbuild
      rw [hheaders, getElem?_storeHeader hcovered.length hs] at hget
      rw [hgenerated, prev_storeHeader rfl hheaders hcovered.length hs hheight]
      by_cases hat : h = height
      · subst hat
        rw [if_pos (.inl rfl), Option.some.injEq] at hget
        rw [update_self, if_neg (by omega)]
        exact ⟨filter, rfl, hget.symm.trans (hmakes _ _)⟩
      · rw [if_neg (by omega)] at hget
        obtain ⟨made, hmade, hnew⟩ := hsys h header hget
        rw [update_of_ne hat]
        refine ⟨made, hmade, ?_⟩
        split_ifs with hnext
        · subst hnext
          have hprev := habove header hget
          rw [hnew] at hprev ⊢
          simpa [FilterRules.bip157Header] using hprev
        · exact hnew

end FilterSystem

/-- The header chain commits to the filters at every point of a run exactly when every filter
continues it. -/
theorem filter_headers_commit_iff {S F H : Type} [DecidableEq H] (rules : FilterRules S F H)
    (hmakes : rules.MakesBip157Headers) (steps : List (FilterStep S H))
    (hsteps : ∀ s ∈ steps, s.InRange) :
    (∀ n, ((steps.take n).foldl (FilterSystem.step rules) FilterSystem.opened).Committed rules) ↔
      GuardedRun.Guarded (FilterSystem.step rules) (FilterSystem.Continues rules)
        (FilterSystem.opened (F := F)) steps := by
  have hrun : GuardedRun.Guarded (FilterSystem.step rules) (fun _ s => s.InRange)
      (FilterSystem.opened (F := F)) steps :=
    GuardedRun.guarded_of_forall (fun s hs _ => hsteps s hs) _
  have hopened : (FilterSystem.opened (F := F) (H := H)).Covered :=
    ⟨fun h hh => (Bool.false_ne_true hh).elim, Nat.two_pow_pos 32⟩
  refine GuardedRun.forall_take_iff_of_guarded (fun sys s hs hcovered _ => hcovered.step hs)
    (fun sys s hs hcovered hsys => hsys.step_iff hmakes hcovered hs) hopened ?_ hrun
  intro h header hget
  cases hget

section Concrete

def plainFilters : FilterRules ℕ ℕ ℕ where
  buildBlockFilterOutputScripts := fun _ outputs _ => .ok (outputs.headD 0)
  newHeader := fun filter prev =>
    ⟨filter + 1, (prev.map fun below => 100 * below.prevHeaderHash + below.filterHash).getD 0⟩
  filterHash := fun filter => filter + 1
  headerHash := fun header => 100 * header.prevHeaderHash + header.filterHash
  zeroHash := 0

/-- The filter at height 1 is made twice. -/
def filtersInOrder : List (FilterStep ℕ ℕ) :=
  [.generate [3] [] 20 0, .generate [4] [] 21 1, .generate [4] [] 21 1, .prune 20]

theorem filter_headers_commit_inOrder :
    (filtersInOrder.foldl (FilterSystem.step plainFilters) FilterSystem.opened).Committed
      plainFilters := by
  refine (filter_headers_commit_iff plainFilters (fun _ _ => rfl) filtersInOrder ?_).mpr
    ⟨?_, ?_, ?_, trivial, trivial⟩ 4
  · simp [filtersInOrder, FilterStep.InRange]
  all_goals exact fun _ _ => ⟨by decide, fun _ habove => by cases habove⟩

def lateFirstFilter : List (FilterStep ℕ ℕ) := [.generate [5] [] 20 2]

def replacedFilter : List (FilterStep ℕ ℕ) :=
  [.generate [3] [] 20 0, .generate [4] [] 21 1, .generate [5] [] 22 2, .generate [7] [] 31 1]

/-- Heights 0 and 1 get the header of height 2, and the header at height 2 stays on the old chain.
-/
theorem late_filter_breaks_header_chain :
    ¬ (lateFirstFilter.foldl (FilterSystem.step plainFilters) FilterSystem.opened).Committed
      plainFilters ∧
    ¬ (replacedFilter.foldl (FilterSystem.step plainFilters) FilterSystem.opened).Committed
      plainFilters := by
  constructor
  · intro hcommitted
    obtain ⟨filter, hfilter, -⟩ := hcommitted 0 ⟨6, 0⟩ rfl
    cases hfilter
  · intro hcommitted
    obtain ⟨filter, -, hheader⟩ := hcommitted 2 ⟨6, 405⟩ rfl
    have hprev : 405 = plainFilters.headerHash ⟨8, 4⟩ :=
      congrArg FilterHeader.prevHeaderHash hheader
    exact absurd hprev (by decide)

end Concrete

end BlvmNode
