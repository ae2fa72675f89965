import BlvmNode.ForkChoice
import BlvmNode.Lib.KeyTable

/-!
# The hold of fork bodies

Bodies whose parent is not known yet wait in a map from parents to children. A queue of hashes
decides which body leaves a full hold, and a counter stands for their number. Together the three
are one list of bodies in the order they were parked.
-/

namespace BlvmNode

open List KeyTable

structure ForkBodyHold (Body : Type) where
  byParent : KeyTable Hash (List Body)
  order : List Hash
  len : ℕ

inductive HoldOp (Body : Type)
  | park (parent : Hash) (body : Body)
  | takeChildren (parent : Hash)

open ForkBodyHold

variable {Body : Type} (hashOf : Body → Hash)

namespace ForkBodyHold

def empty : ForkBodyHold Body := ⟨KeyTable.empty, [], 0⟩

def hasHash (hash : Hash) (children : List Body) : Bool :=
  children.any (fun item => decide (hashOf item = hash))

/-- The loop of `drop_oldest`: hashes that are no longer held are skipped. -/
def dropLoop : List Hash → KeyTable Hash (List Body) → ℕ → ForkBodyHold Body
  | [], held, len => ⟨held, [], len⟩
  | hash :: order, held, len =>
    match held.rows.find? (fun row => hasHash hashOf hash row.2) with
    | none => dropLoop order (held.retain (fun _ children => !children.isEmpty)) len
    | some row =>
      ⟨(held.insert row.1 (row.2.eraseP (fun item => decide (hashOf item = hash)))).retain
        (fun _ children => !children.isEmpty), order, len - 1⟩

def dropOldest (hold : ForkBodyHold Body) : ForkBodyHold Body :=
  dropLoop hashOf hold.order hold.byParent hold.len

def park (parent : Hash) (body : Body) (hold : ForkBodyHold Body) : ForkBodyHold Body :=
  if hold.byParent.rows.any (fun row => hasHash hashOf (hashOf body) row.2) then hold
  else
    let hold := if forkBodyHoldLimit ≤ hold.len then hold.dropOldest hashOf else hold
    ⟨hold.byParent.insert parent ((hold.byParent.get parent).getD [] ++ [body]),
      hold.order ++ [hashOf body], hold.len + 1⟩

def takeChildren (parent : Hash) (hold : ForkBodyHold Body) : List Body × ForkBodyHold Body :=
  let children := (hold.byParent.get parent).getD []
  let rest := hold.byParent.erase parent
  if children.isEmpty then (children, { hold with byParent := rest })
  else (children, ⟨rest, hold.order.filter (fun hash => decide (hash ∉ children.map hashOf)),
    hold.len - children.length⟩)

def apply (hold : ForkBodyHold Body) : HoldOp Body → ForkBodyHold Body
  | .park parent body => hold.park hashOf parent body
  | .takeChildren parent => (hold.takeChildren hashOf parent).2

end ForkBodyHold

/-- The held bodies in park order, each with the parent it was parked under: a body is held once,
and a full hold loses its first one. -/
def parkItem (items : List (Hash × Body)) (parent : Hash) (body : Body) : List (Hash × Body) :=
  if hashOf body ∈ items.map (fun item => hashOf item.2) then items
  else (if forkBodyHoldLimit ≤ items.length then items.tail else items) ++ [(parent, body)]

def childrenOf (items : List (Hash × Body)) (parent : Hash) : List Body :=
  (items.filter (fun item => decide (item.1 = parent))).map Prod.snd

def applyItems (items : List (Hash × Body)) : HoldOp Body → List (Hash × Body)
  | .park parent body => parkItem hashOf items parent body
  | .takeChildren parent => items.filter (fun item => decide (item.1 ≠ parent))

structure Represents (hold : ForkBodyHold Body) (items : List (Hash × Body)) : Prop where
  children : ∀ parent, (hold.byParent.get parent).getD [] = childrenOf items parent
  order : hold.order = items.map (fun item => hashOf item.2)
  len : hold.len = items.length
  nodup : (items.map (fun item => hashOf item.2)).Nodup
  bounded : items.length ≤ forkBodyHoldLimit

section Hold

variable {hashOf} {hold : ForkBodyHold Body} {items : List (Hash × Body)} {parent : Hash}
  {body : Body}

theorem mem_childrenOf : body ∈ childrenOf items parent ↔ (parent, body) ∈ items := by
  simp [childrenOf]

theorem childrenOf_append (items more : List (Hash × Body)) (parent : Hash) :
    childrenOf (items ++ more) parent = childrenOf items parent ++ childrenOf more parent := by
  rw [childrenOf, filter_append, map_append, childrenOf, childrenOf]

theorem Represents.mem_iff (h : Represents hashOf hold items) :
    (parent, body) ∈ items ↔ ∃ row ∈ hold.byParent.rows, row.1 = parent ∧ body ∈ row.2 := by
  rw [← mem_childrenOf, ← h.children]
  constructor
  · intro hmem
    cases hget : hold.byParent.get parent with
    | none => simp [hget] at hmem
    | some children =>
      rw [hget, Option.getD_some] at hmem
      exact ⟨(parent, children), get_eq_some_iff.mp hget, rfl, hmem⟩
  · rintro ⟨row, hrow, rfl, hmem⟩
    rwa [get_eq_some_iff.mpr hrow, Option.getD_some]

theorem hasHash_iff {hash : Hash} {children : List Body} :
    hasHash hashOf hash children ↔ ∃ item ∈ children, hashOf item = hash := by
  simp [hasHash]

theorem Represents.isHeld_iff (h : Represents hashOf hold items) (hash : Hash) :
    hold.byParent.rows.any (fun row => hasHash hashOf hash row.2) ↔
      hash ∈ items.map (fun item => hashOf item.2) := by
  simp only [any_eq_true, hasHash_iff, mem_map]
  constructor
  · rintro ⟨row, hrow, item, hitem, rfl⟩
    exact ⟨(row.1, item), h.mem_iff.mpr ⟨row, hrow, rfl, hitem⟩, rfl⟩
  · rintro ⟨item, hitem, rfl⟩
    obtain ⟨row, hrow, -, hmem⟩ := h.mem_iff.mp hitem
    exact ⟨row, hrow, item.2, hmem, rfl⟩

theorem getD_retain (held : KeyTable Hash (List Body)) (parent : Hash) :
    ((held.retain (fun _ children => !children.isEmpty)).get parent).getD [] =
      (held.get parent).getD [] := by
  rw [get_retain]
  cases held.get parent with
  | none => rfl
  | some children => cases children <;> rfl

theorem Represents.dropOldest {first : Hash × Body} {rest : List (Hash × Body)}
    (h : Represents hashOf hold (first :: rest)) :
    Represents hashOf (hold.dropOldest hashOf) rest := by
  have hnodup := h.nodup
  rw [map_cons, nodup_cons] at hnodup
  have hheld : (hold.byParent.rows.find?
      (fun row => hasHash hashOf (hashOf first.2) row.2)).isSome := by
    rw [find?_isSome, ← any_eq_true, h.isHeld_iff]
    exact mem_cons_self
  obtain ⟨row, hrow⟩ := Option.isSome_iff_exists.mp hheld
  have hfound := find?_some hrow
  obtain ⟨item, hitem, hhash⟩ := hasHash_iff.mp hfound
  -- the row is the one of the first item, which stands at its head
  have hfirst : (row.1, item) = first := by
    have hmem := h.mem_iff.mpr ⟨row, mem_of_find?_eq_some hrow, rfl, hitem⟩
    rcases mem_cons.mp hmem with heq | hmem
    · exact heq
    · refine absurd ?_ hnodup.1
      rw [← hhash]
      exact mem_map_of_mem hmem
  have hparent : first.1 = row.1 := by rw [← hfirst]
  have hchildren : row.2 = first.2 :: childrenOf rest row.1 := by
    have hall := h.children row.1
    rwa [get_eq_some_iff.mpr (mem_of_find?_eq_some hrow), Option.getD_some, childrenOf,
      filter_cons_of_pos (by simpa using hparent), map_cons] at hall
  have hdrop : hold.dropOldest hashOf =
      ⟨(hold.byParent.insert row.1 (childrenOf rest row.1)).retain
        (fun _ children => !children.isEmpty), rest.map (fun item => hashOf item.2),
        rest.length⟩ := by
    rw [ForkBodyHold.dropOldest, h.order, h.len, map_cons, ForkBodyHold.dropLoop, hrow]
    simp only [hchildren, length_cons, Nat.add_sub_cancel]
    rw [eraseP_cons_of_pos (by simp)]
  rw [hdrop]
  refine ⟨fun p => ?_, rfl, rfl, hnodup.2, (Nat.le_succ _).trans h.bounded⟩
  rw [getD_retain, get_insert]
  split_ifs with hp
  · rw [hp, Option.getD_some]
  · rw [h.children, childrenOf, filter_cons_of_neg (by simpa [hparent] using Ne.symm hp),
      childrenOf]

theorem Represents.park (h : Represents hashOf hold items) (parent : Hash) (body : Body) :
    Represents hashOf (hold.park hashOf parent body) (parkItem hashOf items parent body) := by
  rw [ForkBodyHold.park, parkItem, h.len]
  by_cases hheld : hashOf body ∈ items.map (fun item => hashOf item.2)
  · rwa [if_pos ((h.isHeld_iff _).mpr hheld), if_pos hheld]
  rw [if_neg (mt (h.isHeld_iff _).mp hheld), if_neg hheld]
  -- either way a represented hold with room for one more
  have hroom : ∀ {hold' : ForkBodyHold Body} {items' : List (Hash × Body)},
      Represents hashOf hold' items' → items'.Sublist items → items'.length < forkBodyHoldLimit →
      Represents hashOf ⟨hold'.byParent.insert parent
        ((hold'.byParent.get parent).getD [] ++ [body]), hold'.order ++ [hashOf body],
        hold'.len + 1⟩ (items' ++ [(parent, body)]) := by
    intro hold' items' h' hsub hlt
    refine ⟨fun p => ?_, ?_, ?_, ?_, ?_⟩
    · rw [childrenOf_append, get_insert, ← h'.children]
      split_ifs with hp
      · simp [hp, childrenOf]
      · simp [childrenOf, Ne.symm hp]
    · rw [map_append, h'.order]
      rfl
    · rw [length_append, h'.len]
      rfl
    · rw [map_append, map_singleton, nodup_append]
      refine ⟨h'.nodup, nodup_singleton _, ?_⟩
      rintro a ha b hb rfl
      exact hheld (mem_singleton.mp hb ▸ (hsub.map _).subset ha)
    · rw [length_append]
      exact hlt
  split_ifs with hfull
  · cases items with
    | nil => simp [forkBodyHoldLimit] at hfull
    | cons first rest =>
      exact hroom h.dropOldest (sublist_cons_self first rest) (Nat.lt_of_succ_le h.bounded)
  · exact hroom h (Sublist.refl _) (Nat.lt_of_not_le hfull)

theorem Represents.takeChildren (h : Represents hashOf hold items) (parent : Hash) :
    (hold.takeChildren hashOf parent).1 = childrenOf items parent ∧
      Represents hashOf (hold.takeChildren hashOf parent).2
        (items.filter (fun item => decide (item.1 ≠ parent))) := by
  have hnodup := h.nodup
  have hinj := inj_on_of_nodup_map hnodup
  set kept := items.filter (fun item => decide (item.1 ≠ parent))
  have horder : hold.order.filter
      (fun hash => decide (hash ∉ (childrenOf items parent).map hashOf)) =
      kept.map (fun item => hashOf item.2) := by
    rw [h.order, filter_map]
    congr 1
    apply filter_congr
    intro item hitem
    simp only [Function.comp_apply, decide_eq_decide, mem_map, mem_childrenOf]
    rw [ne_eq, not_iff_not]
    constructor
    · rintro ⟨other, hother, hhash⟩
      rw [← hinj hother hitem hhash]
    · rintro rfl
      exact ⟨item.2, hitem, rfl⟩
  have hlen : items.length - (childrenOf items parent).length = kept.length := by
    have hsplit := (filter_append_perm (fun item => decide (item.1 = parent)) items).length_eq
    rw [length_append] at hsplit
    rw [childrenOf, length_map, ← hsplit, Nat.add_sub_cancel_left]
    simp only [kept, decide_not]
  have hrest : ∀ p, ((hold.byParent.erase parent).get p).getD [] = childrenOf kept p := by
    intro p
    rw [get_erase, childrenOf, filter_filter]
    split_ifs with hp
    · simp [hp]
    · rw [h.children, childrenOf]
      congr 1
      apply filter_congr
      intro item _
      simp only [decide_eq_decide, ← Bool.decide_and]
      exact ⟨fun heq => ⟨heq, heq ▸ hp⟩, And.left⟩
  have hbounded := (length_filter_le (fun item => decide (item.1 ≠ parent)) items).trans h.bounded
  simp only [ForkBodyHold.takeChildren, h.children]
  split_ifs with hempty
  · refine ⟨rfl, hrest, ?_, ?_, hnodup.sublist (filter_sublist.map _), hbounded⟩
    · rw [← horder, isEmpty_iff.mp hempty]
      simp
    · rw [← hlen, isEmpty_iff.mp hempty, h.len]
      rfl
  · exact ⟨rfl, hrest, horder, h.len ▸ hlen, hnodup.sublist (filter_sublist.map _), hbounded⟩

theorem represents_apply (h : Represents hashOf hold items) (op : HoldOp Body) :
    Represents hashOf (hold.apply hashOf op) (applyItems hashOf items op) := by
  cases op with
  | park parent body => exact h.park parent body
  | takeChildren parent => exact (h.takeChildren parent).2

theorem represents_run (ops : List (HoldOp Body)) (h : Represents hashOf hold items) :
    Represents hashOf (ops.foldl (apply hashOf) hold) (ops.foldl (applyItems hashOf) items) :=
  foldl_rel h fun op _ _ _ h => represents_apply h op

theorem flatMap_children_perm {rows : List (Hash × List Body)} (hnodup : (rows.map Prod.fst).Nodup)
    (hrows : ∀ row ∈ rows, row.2 = childrenOf items row.1)
    (hcover : ∀ item ∈ items, item.1 ∈ rows.map Prod.fst) :
    (rows.flatMap Prod.snd).Perm (items.map Prod.snd) := by
  induction rows generalizing items with
  | nil =>
    rw [eq_nil_iff_forall_not_mem.mpr fun item hitem => not_mem_nil (hcover item hitem)]
    exact Perm.refl _
  | cons row rows ih =>
    rw [map_cons, nodup_cons] at hnodup
    rw [forall_mem_cons] at hrows
    have hothers : (rows.flatMap Prod.snd).Perm
        ((items.filter (fun item => !decide (item.1 = row.1))).map Prod.snd) := by
      apply ih hnodup.2
      · intro other hother
        rw [hrows.2 other hother, childrenOf, childrenOf, filter_filter]
        congr 1
        apply filter_congr
        intro item _
        have hne : other.1 ≠ row.1 := fun heq => hnodup.1 (heq ▸ mem_map_of_mem hother)
        by_cases hitem : item.1 = other.1
        · simp [hitem, hne]
        · simp [hitem]
      · intro item hitem
        obtain ⟨hmem, hne⟩ := mem_filter.mp hitem
        exact (mem_cons.mp (hcover item hmem)).resolve_left (by simpa using hne)
    rw [flatMap_cons, hrows.1]
    refine (hothers.append_left _).trans ?_
    rw [childrenOf, ← map_append]
    exact (filter_append_perm (fun item => decide (item.1 = row.1)) items).map Prod.snd

theorem Represents.flatMap_perm (h : Represents hashOf hold items) :
    (hold.byParent.rows.flatMap Prod.snd).Perm (items.map Prod.snd) := by
  apply flatMap_children_perm hold.byParent.nodup
  · intro row hrow
    rw [← h.children, get_eq_some_iff.mpr hrow, Option.getD_some]
  · intro item hitem
    obtain ⟨row, hrow, hparent, -⟩ := h.mem_iff.mp hitem
    exact hparent ▸ mem_map_of_mem hrow

end Hold

/-- After any calls the hold is the list of the bodies parked and not yet taken or evicted, in park
order and each once: the counter and the queue have its length, and children are handed out as they
stand in it. -/
theorem fork_body_hold_exact (ops : List (HoldOp Body)) :
    let hold := ops.foldl (apply hashOf) empty
    let items := ops.foldl (applyItems hashOf) []
    hold.len = (hold.byParent.rows.flatMap Prod.snd).length ∧ hold.len = hold.order.length ∧
      hold.len ≤ forkBodyHoldLimit ∧
      (hold.byParent.rows.flatMap Prod.snd).Perm (items.map Prod.snd) ∧
      hold.order = items.map (fun item => hashOf item.2) ∧
      ((hold.byParent.rows.flatMap Prod.snd).map hashOf).Nodup ∧
      ∀ parent, (hold.takeChildren hashOf parent).1 = childrenOf items parent := by
  intro hold items
  have h : Represents hashOf hold items :=
    represents_run ops ⟨fun _ => rfl, rfl, rfl, nodup_nil, Nat.zero_le _⟩
  have hperm := h.flatMap_perm
  refine ⟨?_, ?_, h.len ▸ h.bounded, hperm, h.order, ?_, fun parent => (h.takeChildren parent).1⟩
  · rw [hperm.length_eq, length_map, h.len]
  · rw [h.order, length_map, h.len]
  · rw [(hperm.map hashOf).nodup_iff, map_map]
    exact h.nodup

section Blocks

/-! The fork loop keeps its hold as the list of the parked blocks; the map represents it. -/

variable {rules : PowRules} {hold : ForkBodyHold (ForkBlock Body)} {blocks : List (ForkBlock Body)}

def heldHash (rules : PowRules) (block : ForkBlock Body) : Hash := rules.headerHash block.header

def underParents (blocks : List (ForkBlock Body)) : List (Hash × ForkBlock Body) :=
  blocks.map (fun block => (block.header.prevBlockHash, block))

theorem Represents.parkBlock (h : Represents (heldHash rules) hold (underParents blocks))
    (block : ForkBlock Body) :
    Represents (heldHash rules)
      (hold.park (heldHash rules) block.header.prevBlockHash block)
      (underParents (BlvmNode.park rules blocks block)) := by
  have hpark := h.park block.header.prevBlockHash block
  have hitems : parkItem (heldHash rules) (underParents blocks) block.header.prevBlockHash block =
      underParents (BlvmNode.park rules blocks block) := by
    simp only [parkItem, BlvmNode.park, underParents, map_map, length_map, ← map_tail, any_eq_true,
      mem_map, Function.comp_apply, heldHash, decide_eq_true_eq]
    split_ifs <;> simp
  exact hitems ▸ hpark

theorem Represents.takeBlocks (h : Represents (heldHash rules) hold (underParents blocks))
    (parent : Hash) :
    (hold.takeChildren (heldHash rules) parent).1 = (BlvmNode.takeChildren blocks parent).1 ∧
      Represents (heldHash rules) (hold.takeChildren (heldHash rules) parent).2
        (underParents (BlvmNode.takeChildren blocks parent).2) := by
  obtain ⟨hchildren, hrest⟩ := h.takeChildren parent
  rw [hchildren, BlvmNode.takeChildren, partition_eq_filter_filter]
  constructor
  · simp [childrenOf, underParents, filter_map, Function.comp_def]
  · simpa [underParents, filter_map, Function.comp_def] using hrest

end Blocks

end BlvmNode
