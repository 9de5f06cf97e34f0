import Mathlib.Data.List.Pairwise
import WindOs.Data.Walk
import WindOs.List

namespace WindOs.Mm

open Data

/-! # The VMA list of vmm.c

A `vma_struct` is named by the number of the `malloc` call that returned it, so a
new one never coincides with one that exists.
-/

/-- `struct vma_struct` without its back link, which nothing reads. -/
structure VmaStruct where
  vmmStart : Nat
  vmmEnd : Nat
  flags : Nat
deriving DecidableEq, Repr

/-- `&mm->node`, and the `node` of a VMA. -/
inductive VmaNode where
  | head
  | vma (v : Nat)
deriving DecidableEq, Repr

/-- `struct mm_struct` as far as the VMA list goes, with the VMAs it can reach. -/
structure VmaList where
  vmas : Nat → VmaStruct
  allocated : Nat
  nodes : Links VmaNode
  num : Nat
  cache : Option Nat

namespace VmaList

def createMm : VmaList where
  vmas := fun _ => { vmmStart := 0, vmmEnd := 0, flags := 0 }
  allocated := 0
  nodes := listInit { prev := id, next := id } .head
  num := 0
  cache := none

/-- `list_insert_after(begin, &vma->node); mm->num ++;` -/
def insert (mm : VmaList) (begin : VmaNode) (vma : Nat) : VmaList :=
  { mm with
    nodes := listInsertAfter mm.nodes begin (.vma vma)
    num := (mm.num + 1) % 2 ^ 32 }

/-- One round of the search for the place of a new VMA.  The accumulator is `begin`,
and the answer says whether the loop was left by its `break`. -/
def visitStart (mm : VmaList) (vmmStart : Nat) :
    VmaNode → VmaNode → VmaNode ⊕ (VmaNode × Bool)
  | .head, begin => .inr (begin, false)
  | .vma temp, begin =>
      if (mm.vmas temp).vmmStart > vmmStart then .inr (begin, true) else .inl (.vma temp)

/-- A new `vma_struct` with its fields, not yet on the list. -/
def mallocVma (mm : VmaList) (fields : VmaStruct) : VmaList :=
  { mm with vmas := Function.update mm.vmas mm.allocated fields, allocated := mm.allocated + 1 }

/-- The insertion before the `break`, and the test after the loop. -/
def place (mm : VmaList) (vma : Nat) (found : VmaNode × Bool) : VmaList :=
  let begin := found.1
  let mm := if found.2 then mm.insert begin vma else mm
  if begin = .head then mm.insert .head vma else mm

/-- `none` says that the search did not end within `fuel` rounds. -/
def createVma (fuel : Nat) (mm : VmaList) (fields : VmaStruct) : Option (VmaList × Nat) :=
  let vma := mm.allocated
  let mm := mm.mallocVma fields
  (loop (walk mm.nodes .head (mm.visitStart fields.vmmStart) fun begin => (begin, false)) fuel
    (mm.nodes.next .head, .head)).map fun found => (mm.place vma found, vma)

/-- The search of `find_vma`; the answer is the VMA it returns. -/
def visitAddr (mm : VmaList) (addr : Nat) : VmaNode → Unit → Unit ⊕ Option Nat
  | .head, _ => .inr none
  | .vma temp, _ =>
      if (mm.vmas temp).vmmStart ≤ addr ∧ (mm.vmas temp).vmmEnd > addr then .inr (some temp)
      else .inl ()

/-- The VMA found, if any, and the list with its cache updated.  The cache is asked
with `<` where the list is asked with `<=`. -/
def findVma (fuel : Nat) (mm : VmaList) (addr : Nat) : Option (Option Nat × VmaList) :=
  let search := (loop (walk mm.nodes .head (mm.visitAddr addr) fun _ => none) fuel
    (mm.nodes.next .head, ())).map fun found =>
      match found with
      | some temp => (some temp, { mm with cache := some temp })
      | none => (none, mm)
  match mm.cache with
  | some cache =>
      if (mm.vmas cache).vmmStart < addr ∧ (mm.vmas cache).vmmEnd > addr then
        some (some cache, mm)
      else search
  | none => search

/-- A whole sequence of calls on a new `mm`. -/
def createVmas (fuel : Nat) (calls : List VmaStruct) : Option VmaList :=
  calls.foldlM (fun mm fields => (mm.createVma fuel fields).map Prod.fst) createMm

/-- What the VMA list should be after some calls: a ring of all the VMAs they
created, each once and in the order of their start addresses. -/
structure WellFormed (mm : VmaList) (calls : List VmaStruct) : Prop where
  ring : ∃ order : List Nat, order.Perm (List.range calls.length) ∧
    mm.nodes.IsRing .head (order.map .vma) ∧
    order.Pairwise fun first second => (mm.vmas first).vmmStart ≤ (mm.vmas second).vmmStart
  fields : ∀ v, ∀ inside : v < calls.length, mm.vmas v = calls[v]
  traversal : ∀ addr, ∃ fuel found, mm.findVma fuel addr = some found
  num : mm.num = calls.length % 2 ^ 32

/-- Every call of the sequence returns, to a list that is as it should be. -/
def StaysWellFormed (calls : List VmaStruct) : Prop :=
  ∀ count ≤ calls.length, ∃ fuel mm,
    createVmas fuel (calls.take count) = some mm ∧ mm.WellFormed (calls.take count)

variable {mm : VmaList} {order : List Nat} {fields first second : VmaStruct} {fuel : Nat}

theorem findVma_ends (ring : mm.nodes.IsRing .head (order.map .vma)) (addr : Nat) :
    ∃ fuel found, mm.findVma fuel addr = some found := by
  have search := @loop_walk_ring _ _ _ _ _ (mm.visitAddr addr) (fun _ => none) _ _ ring ()
    (order.length + 1) (by simp)
  refine ⟨order.length + 1, ?_⟩
  simp only [findVma, search, Option.map_some]
  cases mm.cache with
  | none => exact ⟨_, rfl⟩
  | some cache =>
      by_cases hit : (mm.vmas cache).vmmStart < addr ∧ (mm.vmas cache).vmmEnd > addr
      · exact ⟨_, if_pos hit⟩
      · exact ⟨_, if_neg hit⟩

/-- The node after which `create_vma` wants to insert, and whether it did. -/
def found (mm : VmaList) (fields : VmaStruct) (order : List Nat) : VmaNode × Bool :=
  scan ((mm.mallocVma fields).visitStart fields.vmmStart) (fun begin => (begin, false))
    (order.map .vma) .head

theorem createVma_eq (ring : mm.nodes.IsRing .head (order.map .vma))
    (enough : order.length < fuel) :
    mm.createVma fuel fields =
      some ((mm.mallocVma fields).place mm.allocated (mm.found fields order), mm.allocated) := by
  have search := @loop_walk_ring _ _ _ _ _ ((mm.mallocVma fields).visitStart fields.vmmStart)
    (fun begin => (begin, false)) _ _ ring .head fuel (by simpa using enough)
  have same : (mm.mallocVma fields).nodes = mm.nodes := rfl
  simp only [createVma, same, search, Option.map_some, found]

theorem createVma_unique (ring : mm.nodes.IsRing .head (order.map .vma))
    {result : VmaList × Nat} (called : mm.createVma fuel fields = some result) :
    result = ((mm.mallocVma fields).place mm.allocated (mm.found fields order), mm.allocated) := by
  have search := @loop_walk_ring _ _ _ _ _ ((mm.mallocVma fields).visitStart fields.vmmStart)
    (fun begin => (begin, false)) _ _ ring .head (order.length + 1) (by simp)
  obtain ⟨place, ended, rfl⟩ := Option.map_eq_some_iff.mp called
  rw [loop_unique ended search, found]

theorem createMm_ring : createMm.nodes.IsRing .head ([].map .vma) := listInit_ring

theorem createMm_wellFormed : createMm.WellFormed [] :=
  ⟨⟨[], by simp, createMm_ring, by simp⟩, fun v inside => absurd inside (Nat.not_lt_zero v),
    findVma_ends createMm_ring, rfl⟩

/-- The list that one call leaves: the loop has no round, and the test after it
inserts the VMA. -/
def oneVma (first : VmaStruct) : VmaList :=
  (createMm.mallocVma first).insert .head 0

theorem createVmas_one (enough : 0 < fuel) : createVmas fuel [first] = some (oneVma first) := by
  simp only [createVmas, List.foldlM_cons, List.foldlM_nil,
    @createVma_eq _ [] _ _ createMm_ring enough]
  rfl

theorem oneVma_ring : (oneVma first).nodes.IsRing .head ([0].map .vma) :=
  listInsertAfter_head_ring createMm_ring (by decide)

theorem oneVma_wellFormed : (oneVma first).WellFormed [first] := by
  refine ⟨⟨[0], by simp, oneVma_ring, by simp⟩, ?_, findVma_ends oneVma_ring, rfl⟩
  intro v inside
  have zero : v = 0 := by simpa using inside
  subst zero
  simp [oneVma, insert, mallocVma, createMm]

theorem createVmas_two {mm : VmaList} (called : createVmas fuel [first, second] = some mm) :
    mm = ((oneVma first).mallocVma second).place 1
      (if first.vmmStart > second.vmmStart then (.head, true) else (.vma 0, false)) := by
  simp only [createVmas, List.foldlM_cons, List.foldlM_nil, Option.bind_eq_bind,
    Option.bind_eq_some_iff, Option.map_eq_some_iff] at called
  obtain ⟨_, ⟨one, calledFirst, rfl⟩, _, ⟨two, calledSecond, rfl⟩, same⟩ := called
  have firstResult : one.1 = oneVma first := by
    rw [@createVma_unique _ [] _ _ createMm_ring _ calledFirst]
    rfl
  rw [firstResult] at calledSecond
  have secondResult := createVma_unique oneVma_ring calledSecond
  cases same
  rw [secondResult]
  have start : ((oneVma first).mallocVma second).vmas 0 = first := by
    simp [oneVma, insert, mallocVma, createMm]
  have place : (oneVma first).found second [0] =
      if first.vmmStart > second.vmmStart then (.head, true) else (.vma 0, false) := by
    simp only [found, scan, List.map_cons, List.map_nil, visitStart, start]
    by_cases smaller : first.vmmStart > second.vmmStart
    · simp only [if_pos smaller]
    · simp only [if_neg smaller]
  rw [place]
  rfl

/-- A new smallest start address is inserted before the `break` and again by the
test after the loop, and the second insertion ties its node to itself. -/
theorem smaller_self_loop :
    (((oneVma first).mallocVma second).place 1 (.head, true)).nodes.next (.vma 1) = .vma 1 := by
  simp [place, insert, listInsertAfter]

/-- A new largest start address is never inserted. -/
theorem larger_not_counted :
    (((oneVma first).mallocVma second).place 1 (.vma 0, false)).num = 1 := by
  simp [place, mallocVma, oneVma, insert, createMm]

theorem not_ring_of_self_loop {nodes : List VmaNode} {v : Nat}
    (self : mm.nodes.next (.vma v) = .vma v) (member : .vma v ∈ nodes) :
    ¬ mm.nodes.IsRing .head nodes := by
  intro ring
  obtain ⟨before, behind, rfl⟩ := List.append_of_mem member
  have next := ring.next_member
  rw [self] at next
  cases behind with
  | nil => contradiction
  | cons node rest =>
      have same : VmaNode.vma v = node := next
      subst same
      have nodup := ring.nodup
      simp [List.nodup_append] at nodup

theorem two_not_wellFormed {mm : VmaList} (called : createVmas fuel [first, second] = some mm) :
    ¬ mm.WellFormed [first, second] := by
  intro wellFormed
  have result := createVmas_two called
  subst result
  by_cases smaller : first.vmmStart > second.vmmStart
  · rw [if_pos smaller] at wellFormed
    obtain ⟨order, complete, ring, _⟩ := wellFormed.ring
    have member : VmaNode.vma 1 ∈ order.map .vma :=
      List.mem_map_of_mem (complete.mem_iff.mpr (by simp))
    exact not_ring_of_self_loop smaller_self_loop member ring
  · rw [if_neg smaller] at wellFormed
    have num := wellFormed.num
    rw [larger_not_counted] at num
    simp at num

/-- The VMA list of an `mm` stays as it should be exactly while `create_vma` has
been called at most once: the second VMA is tied into an endless list when its
start address is smaller than the first, and left out when it is not. -/
theorem createVma_at_most_once (calls : List VmaStruct) :
    StaysWellFormed calls ↔ calls.length ≤ 1 := by
  constructor
  · intro stays
    by_contra many
    match calls, many with
    | first :: second :: rest, _ =>
        obtain ⟨fuel, mm, called, wellFormed⟩ := stays 2 (by simp)
        exact two_not_wellFormed called wellFormed
    | [], many => simp at many
    | [first], many => simp at many
  · intro few count within
    match calls, few with
    | [], _ =>
        exact ⟨0, createMm, by simp [createVmas], by simpa using createMm_wellFormed⟩
    | [first], _ =>
        have cases : count = 0 ∨ count = 1 := by
          simp only [List.length_singleton] at within
          omega
        obtain rfl | rfl := cases
        · exact ⟨0, createMm, by simp [createVmas], createMm_wellFormed⟩
        · exact ⟨1, oneVma first, createVmas_one (by decide), oneVma_wellFormed⟩

/-- Two adjacent VMAs, the upper one first. -/
theorem createVma_twice_breaks :
    ¬ StaysWellFormed [{ vmmStart := 0x2000, vmmEnd := 0x3000, flags := 7 },
      { vmmStart := 0x1000, vmmEnd := 0x2000, flags := 7 }] := by
  intro stays
  obtain ⟨fuel, mm, called, wellFormed⟩ := stays 2 (by decide)
  exact two_not_wellFormed called wellFormed

/-! ## Lookups

The cache is the answer of an earlier lookup, so it is asked about addresses that
have nothing to do with it.
-/

def Contains (vma : VmaStruct) (addr : Nat) : Prop :=
  vma.vmmStart ≤ addr ∧ addr < vma.vmmEnd

instance (vma : VmaStruct) (addr : Nat) : Decidable (Contains vma addr) :=
  inferInstanceAs (Decidable (_ ∧ _))

/-- Lookups one after the other, with what each of them returned. -/
def findVmas (fuel : Nat) (mm : VmaList) : List Nat → Option (List (Option Nat) × VmaList)
  | [] => some ([], mm)
  | addr :: addrs => do
      let (found, mm) ← mm.findVma fuel addr
      let (others, mm) ← mm.findVmas fuel addrs
      some (found :: others, mm)

/-- A ring of VMAs of which no two share an address, and a cache that is one of them. -/
structure Lookable (mm : VmaList) (order : List Nat) : Prop where
  ring : mm.nodes.IsRing .head (order.map .vma)
  apart : order.Pairwise fun v w => ∀ addr, ¬ (Contains (mm.vmas v) addr ∧ Contains (mm.vmas w) addr)
  cache : ∀ v, mm.cache = some v → v ∈ order

/-- What a lookup should return, without a cache. -/
def holder (mm : VmaList) (order : List Nat) (addr : Nat) : Option Nat :=
  order.find? fun v => Contains (mm.vmas v) addr

theorem scan_visitAddr (addr : Nat) :
    scan (mm.visitAddr addr) (fun _ => none) (order.map .vma) () = mm.holder order addr := by
  induction order with
  | nil => rfl
  | cons v order ih =>
      by_cases here : Contains (mm.vmas v) addr
      · have hit : (mm.vmas v).vmmStart ≤ addr ∧ (mm.vmas v).vmmEnd > addr := here
        simp [scan, visitAddr, holder, hit, here]
      · have miss : ¬ ((mm.vmas v).vmmStart ≤ addr ∧ (mm.vmas v).vmmEnd > addr) := here
        simp only [List.map_cons, scan, visitAddr, if_neg miss, ih, holder, List.find?_cons, here,
          decide_false]

theorem Lookable.same_vma (lookable : mm.Lookable order) {v w addr : Nat} (left : v ∈ order)
    (right : w ∈ order) (first : Contains (mm.vmas v) addr) (second : Contains (mm.vmas w) addr) :
    v = w := by
  by_contra different
  have symmetric : Std.Symm fun v w =>
      ∀ addr, ¬ (Contains (mm.vmas v) addr ∧ Contains (mm.vmas w) addr) :=
    ⟨fun _ _ apart addr both => apart addr both.symm⟩
  exact lookable.apart.forall left right different addr ⟨first, second⟩

theorem Lookable.holder_eq_some (lookable : mm.Lookable order) {v addr : Nat} :
    mm.holder order addr = some v ↔ v ∈ order ∧ Contains (mm.vmas v) addr := by
  constructor
  · intro found
    exact ⟨List.mem_of_find?_eq_some found, by simpa using List.find?_some found⟩
  · rintro ⟨member, here⟩
    cases found : mm.holder order addr with
    | none =>
        have missed := List.find?_eq_none.mp found v member
        simp [here] at missed
    | some w =>
        have other : Contains (mm.vmas w) addr := by simpa using List.find?_some found
        rw [lookable.same_vma (List.mem_of_find?_eq_some found) member other here]

theorem holder_eq_none {addr : Nat} :
    mm.holder order addr = none ↔ ∀ v ∈ order, ¬ Contains (mm.vmas v) addr := by
  simp [holder, List.find?_eq_none]

theorem findVma_hit {v addr : Nat} (cached : mm.cache = some v)
    (hit : (mm.vmas v).vmmStart < addr ∧ (mm.vmas v).vmmEnd > addr) :
    mm.findVma fuel addr = some (some v, mm) := by
  simp only [findVma, cached, if_pos hit]

theorem findVma_miss (ring : mm.nodes.IsRing .head (order.map .vma)) (enough : order.length < fuel)
    {addr : Nat} (miss : ∀ v, mm.cache = some v →
      ¬ ((mm.vmas v).vmmStart < addr ∧ (mm.vmas v).vmmEnd > addr)) :
    mm.findVma fuel addr =
      some (mm.holder order addr, { mm with cache := (mm.holder order addr).or mm.cache }) := by
  have search := @loop_walk_ring _ _ _ _ _ (mm.visitAddr addr) (fun _ => none) _ _ ring () fuel
    (by simpa using enough)
  rw [scan_visitAddr] at search
  simp only [findVma, search, Option.map_some]
  cases cached : mm.cache with
  | none => cases mm.holder order addr <;> simp [← cached]
  | some v =>
      simp only [if_neg (miss v cached)]
      cases mm.holder order addr <;> simp [← cached]

/-- One lookup answers as the scan does, and changes the cache at most. -/
theorem Lookable.findVma (lookable : mm.Lookable order) (enough : order.length < fuel) (addr : Nat) :
    ∃ cache, mm.findVma fuel addr = some (mm.holder order addr, { mm with cache }) ∧
      ∀ v, cache = some v → v ∈ order := by
  by_cases hit : ∃ v, mm.cache = some v ∧ (mm.vmas v).vmmStart < addr ∧ (mm.vmas v).vmmEnd > addr
  · obtain ⟨v, cached, above, below⟩ := hit
    have member := lookable.cache v cached
    have answer : mm.holder order addr = some v :=
      lookable.holder_eq_some.mpr ⟨member, Nat.le_of_lt above, below⟩
    rw [answer]
    exact ⟨mm.cache, findVma_hit cached ⟨above, below⟩, lookable.cache⟩
  · refine ⟨_, findVma_miss lookable.ring enough (fun v cached inside => hit ⟨v, cached, inside⟩), ?_⟩
    intro v kept
    cases found : mm.holder order addr with
    | none =>
        rw [found] at kept
        exact lookable.cache v kept
    | some w =>
        rw [found] at kept
        cases kept
        exact List.mem_of_find?_eq_some found

/-- Whatever was looked up before, a lookup returns the VMA that holds the address,
and `NULL` when there is none. -/
theorem lookups_agree (mm : VmaList) (order : List Nat) (lookable : mm.Lookable order) (fuel : Nat)
    (enough : order.length < fuel) :
    (∀ addr v, mm.holder order addr = some v ↔
      v ∈ order ∧ (mm.vmas v).vmmStart ≤ addr ∧ addr < (mm.vmas v).vmmEnd) ∧
    ∀ addrs, ∃ cache, mm.findVmas fuel addrs = some (addrs.map (mm.holder order), { mm with cache }) ∧
      (cache = none ∨ ∃ v ∈ order, cache = some v) := by
  refine ⟨fun addr v => lookable.holder_eq_some, ?_⟩
  intro addrs
  induction addrs generalizing mm with
  | nil =>
      refine ⟨mm.cache, rfl, ?_⟩
      cases cached : mm.cache with
      | none => exact .inl rfl
      | some v => exact .inr ⟨v, lookable.cache v cached, rfl⟩
  | cons addr addrs ih =>
      obtain ⟨cache, found, member⟩ := lookable.findVma enough addr
      have next : Lookable { mm with cache } order := ⟨lookable.ring, lookable.apart, member⟩
      obtain ⟨last, others, kept⟩ := ih _ next
      refine ⟨last, ?_, kept⟩
      simp only [findVmas, found, Option.bind_eq_bind, Option.bind_some, others]
      rfl

/-- Two VMAs side by side; the lower one is cached. -/
def adjacentVmas : VmaList where
  vmas := fun v =>
    if v = 0 then { vmmStart := 0x1000, vmmEnd := 0x2000, flags := 7 }
    else { vmmStart := 0x2000, vmmEnd := 0x3000, flags := 7 }
  allocated := 2
  nodes := listInsertBefore (listInsertBefore createMm.nodes .head (.vma 0)) .head (.vma 1)
  num := 2
  cache := some 0

theorem adjacentVmas_lookable : adjacentVmas.Lookable [0, 1] where
  ring := by
    have one := @listInsertBefore_head_ring _ _ _ _ (.vma 0) _ createMm_ring (by decide)
    exact @listInsertBefore_head_ring _ _ _ _ (.vma 1) _ one (by decide)
  apart := by
    simp only [List.pairwise_cons, List.mem_singleton, forall_eq, List.not_mem_nil, false_implies,
      implies_true, List.Pairwise.nil, and_true]
    intro addr both
    simp only [Contains, adjacentVmas, if_pos, Nat.one_ne_zero, if_false] at both
    omega
  cache := by decide

/-- Lookups at the borders of the two. -/
theorem lookups_agree_adjacent :
    [0x2000, 0x1FFF, 0x1000, 0x3000].map (adjacentVmas.holder [0, 1]) =
        [some 1, some 0, some 0, none] ∧
      ∃ cache, adjacentVmas.findVmas 3 [0x2000, 0x1FFF, 0x1000, 0x3000] =
          some ([0x2000, 0x1FFF, 0x1000, 0x3000].map (adjacentVmas.holder [0, 1]),
            { adjacentVmas with cache }) ∧
        (cache = none ∨ ∃ v ∈ [0, 1], cache = some v) :=
  ⟨by decide, (lookups_agree adjacentVmas [0, 1] adjacentVmas_lookable 3 (by decide)).2 _⟩

end VmaList

end WindOs.Mm
