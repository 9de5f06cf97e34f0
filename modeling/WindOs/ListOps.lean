import WindOs.List
import WindOs.Data.Rings

namespace WindOs

open Data

universe u

/-! # list.h as operations on sequences

The memory holds a family of rings, each known by its head.  `ListOp.run` is
what an operation does to the links; `ListOp.apply` says what it is for, on the
node sequences alone.
-/

inductive ListOp (ν : Type u) where
  | init (node : ν)
  | insertBefore (node new : ν)
  | insertAfter (node new : ν)
  | delete (node : ν)

namespace ListOp

variable {ν : Type u} [DecidableEq ν] {links : Links ν} {rings : ν → Option (List ν)}
  {op : ListOp ν} {ops : List (ListOp ν)} {h node new : ν} {l : List ν}

def run (links : Links ν) : ListOp ν → Links ν
  | .init node => listInit links node
  | .insertBefore node new => listInsertBefore links node new
  | .insertAfter node new => listInsertAfter links node new
  | .delete node => listDelete links node

/-- In the ring of `h`; before the head is at the end. -/
def insertedBefore (node new h : ν) (l : List ν) : List ν :=
  if node = h then l ++ [new] else Data.insertBefore node new l

def insertedAfter (node new h : ν) (l : List ν) : List ν :=
  if node = h then new :: l else Data.insertAfter node new l

def apply (rings : ν → Option (List ν)) : ListOp ν → ν → Option (List ν)
  | .init node => Function.update rings node (some [])
  | .insertBefore node new => editRing rings node (insertedBefore node new)
  | .insertAfter node new => editRing rings node (insertedAfter node new)
  | .delete node => editRing rings node (fun _ l => l.erase node)

/-- What the callers of list.h keep to: a node is linked once, and a head is never deleted. -/
def Allowed (rings : ν → Option (List ν)) : ListOp ν → Prop
  | .init node => Loose rings node
  | .insertBefore node new => Loose rings new ∧ ∃ h, Owns rings h node
  | .insertAfter node new => Loose rings new ∧ ∃ h, Owns rings h node
  | .delete node => ∃ h l, rings h = some l ∧ node ∈ l

/-- The node whose ring the operation changes. -/
def site : ListOp ν → ν
  | .init node => node
  | .insertBefore node _ => node
  | .insertAfter node _ => node
  | .delete node => node

theorem insertedBefore_ring (ring : links.IsRing h l) (member : node ∈ h :: l)
    (fresh : new ∉ h :: l) :
    (listInsertBefore links node new).IsRing h (insertedBefore node new h l) := by
  cases List.mem_cons.mp member with
  | inl head =>
      subst head
      rw [insertedBefore, if_pos rfl]
      exact listInsertBefore_head_ring ring fresh
  | inr inside =>
      obtain ⟨front, back, rfl, outside, notHead⟩ := ring.split inside
      rw [insertedBefore, if_neg notHead, insertBefore_split outside]
      exact listInsertBefore_ring ring fresh

theorem insertedAfter_ring (ring : links.IsRing h l) (member : node ∈ h :: l)
    (fresh : new ∉ h :: l) :
    (listInsertAfter links node new).IsRing h (insertedAfter node new h l) := by
  cases List.mem_cons.mp member with
  | inl head =>
      subst head
      rw [insertedAfter, if_pos rfl]
      exact listInsertAfter_head_ring ring fresh
  | inr inside =>
      obtain ⟨front, back, rfl, outside, notHead⟩ := ring.split inside
      rw [insertedAfter, if_neg notHead, insertAfter_split outside]
      exact listInsertAfter_ring ring fresh

theorem erased_ring (ring : links.IsRing h l) (inside : node ∈ l) :
    (listDelete links node).IsRing h (l.erase node) := by
  obtain ⟨front, back, rfl, outside, _⟩ := ring.split inside
  rw [erase_split outside]
  exact listDelete_ring ring

theorem insertedBefore_subset (node new h : ν) (l : List ν) :
    insertedBefore node new h l ⊆ new :: l := by
  rw [insertedBefore]
  split
  · exact (List.perm_append_singleton new l).subset
  · exact insertBefore_subset l

theorem insertedAfter_subset (node new h : ν) (l : List ν) :
    insertedAfter node new h l ⊆ new :: l := by
  rw [insertedAfter]
  split
  · exact List.Subset.refl _
  · exact insertAfter_subset l

/-- An operation writes one ring, the one of its site. -/
theorem ringWrite (whole : links.Partitioned rings) (allowed : op.Allowed rings) :
    ∃ h l nodes, RingWrite links (op.run links) rings h l nodes ∧
      op.apply rings = Function.update rings h (some l) ∧
      (op.site = h ∨ Owns rings h op.site) := by
  cases op with
  | init node =>
      have free : ∀ k x, k ≠ node → Owns rings k x → x ∉ [node] := by
        intro k x _ owned member
        exact allowed k (List.mem_singleton.mp member ▸ owned)
      exact ⟨node, [], [node], ⟨listInit_ring, listInit_agreeOff, free, free⟩, rfl, .inl rfl⟩
  | insertBefore node new =>
      obtain ⟨loose, h, owned⟩ := allowed
      obtain ⟨l, found, member⟩ := owned
      have ring := whole.ring h l found
      have fresh := loose.not_mem found
      refine ⟨h, insertedBefore node new h l, [new] ++ h :: l, ?_,
        whole.editRing_eq found member, .inr ⟨l, found, member⟩⟩
      refine .within whole found ?_ (insertedBefore_ring ring member fresh)
        (listInsertBefore_agreeOff ring member fresh) ?_
      · intro x isNew
        exact List.mem_singleton.mp isNew ▸ loose
      · exact List.Subset.trans (insertedBefore_subset node new h l)
          (List.cons_subset_cons new (List.subset_cons_self h l))
  | insertAfter node new =>
      obtain ⟨loose, h, owned⟩ := allowed
      obtain ⟨l, found, member⟩ := owned
      have ring := whole.ring h l found
      have fresh := loose.not_mem found
      refine ⟨h, insertedAfter node new h l, [new] ++ h :: l, ?_,
        whole.editRing_eq found member, .inr ⟨l, found, member⟩⟩
      refine .within whole found ?_ (insertedAfter_ring ring member fresh)
        (listInsertAfter_agreeOff ring member fresh) ?_
      · intro x isNew
        exact List.mem_singleton.mp isNew ▸ loose
      · exact List.Subset.trans (insertedAfter_subset node new h l)
          (List.cons_subset_cons new (List.subset_cons_self h l))
  | delete node =>
      obtain ⟨h, l, found, inside⟩ := allowed
      have ring := whole.ring h l found
      have member : node ∈ h :: l := List.mem_cons_of_mem h inside
      refine ⟨h, l.erase node, [] ++ h :: l, ?_, whole.editRing_eq found member,
        .inr ⟨l, found, member⟩⟩
      refine .within whole found (by simp) (erased_ring ring inside)
        (listDelete_agreeOff ring member) ?_
      exact List.Subset.trans List.erase_subset (List.subset_cons_self h l)

theorem run_partitioned (whole : links.Partitioned rings) (allowed : op.Allowed rings) :
    (op.run links).Partitioned (op.apply rings) := by
  obtain ⟨h, l, nodes, write, applied, _⟩ := ringWrite whole allowed
  rw [applied]
  exact write.partitioned whole

/-- A ring that does not hold the site keeps its sequence and every link of its nodes. -/
theorem run_other (whole : links.Partitioned rings) (allowed : op.Allowed rings)
    (found : rings h = some l) (outside : op.site ∉ h :: l) :
    op.apply rings h = some l ∧
      ∀ x ∈ h :: l, (op.run links).next x = links.next x ∧ (op.run links).prev x = links.prev x := by
  obtain ⟨k, l', nodes, write, applied, atSite⟩ := ringWrite whole allowed
  have different : h ≠ k := by
    intro same
    subst same
    cases atSite with
    | inl head => exact outside (by simp [head])
    | inr owned => exact outside (owned.member found)
  refine ⟨?_, fun x member => write.kept different ⟨l, found, member⟩⟩
  rw [applied, Function.update_of_ne different, found]

/-- The operations of list.h refine those on the family of node sequences. -/
theorem list_refines_sequences (whole : links.Partitioned rings) (allowed : op.Allowed rings) :
    (op.run links).Partitioned (op.apply rings) ∧
      (∀ h x, Owns (op.apply rings) h x →
        (op.run links).prev ((op.run links).next x) = x ∧
          (op.run links).next ((op.run links).prev x) = x) ∧
      ∀ h l, rings h = some l → op.site ∉ h :: l →
        op.apply rings h = some l ∧
          ∀ x ∈ h :: l,
            (op.run links).next x = links.next x ∧ (op.run links).prev x = links.prev x := by
  have after := run_partitioned whole allowed
  refine ⟨after, ?_, ?_⟩
  · intro h x owned
    exact after.inverse owned
  · intro h l found outside
    exact run_other whole allowed found outside

/-- Two rings of two nodes each: 0, 1 and 2, 3. -/
def pairLinks : Links Nat where
  prev := fun x => x ^^^ 1
  next := fun x => x ^^^ 1

def pairRings (h : Nat) : Option (List Nat) :=
  if h = 0 ∨ h = 2 then some [h ^^^ 1] else none

theorem pairRings_owns {h x : Nat} (owned : Owns pairRings h x) :
    (h = 0 ∧ (x = 0 ∨ x = 1)) ∨ (h = 2 ∧ (x = 2 ∨ x = 3)) := by
  obtain ⟨l, found, member⟩ := owned
  unfold pairRings at found
  split at found
  case isTrue heads =>
    cases found
    rcases heads with rfl | rfl
    · exact .inl ⟨rfl, by simpa using member⟩
    · exact .inr ⟨rfl, by simpa using member⟩
  case isFalse => cases found

theorem pairLinks_partitioned : pairLinks.Partitioned pairRings := by
  refine ⟨?_, ?_⟩
  · intro h l found
    unfold pairRings at found
    split at found
    case isTrue heads =>
      cases found
      rcases heads with rfl | rfl
      · exact ⟨by decide, ⟨rfl, rfl⟩, rfl, rfl⟩
      · exact ⟨by decide, ⟨rfl, rfl⟩, rfl, rfl⟩
    case isFalse => cases found
  · intro h k x first second
    have atFirst := pairRings_owns first
    have atSecond := pairRings_owns second
    omega

/-- Node 4 goes before the head of the first ring. -/
theorem list_refines_sequences_before_head :
    (run pairLinks (.insertBefore 0 4)).Partitioned (apply pairRings (.insertBefore 0 4)) ∧
      apply pairRings (.insertBefore 0 4) 0 = some [1, 4] ∧
      apply pairRings (.insertBefore 0 4) 2 = some [3] := by
  have loose : Loose pairRings 4 := by
    intro h owned
    have impossible := pairRings_owns owned
    omega
  have allowed : Allowed pairRings (.insertBefore 0 4) :=
    ⟨loose, 0, [1], rfl, List.mem_cons_self⟩
  exact ⟨(list_refines_sequences pairLinks_partitioned allowed).1, rfl, rfl⟩

/-- Each operation is allowed in the family that the ones before it have left. -/
def AllowedRun (rings : ν → Option (List ν)) : List (ListOp ν) → Prop
  | [] => True
  | op :: ops => op.Allowed rings ∧ AllowedRun (op.apply rings) ops

theorem foldl_partitioned (whole : links.Partitioned rings) (allowed : AllowedRun rings ops) :
    (ops.foldl run links).Partitioned (ops.foldl apply rings) := by
  induction ops generalizing links rings with
  | nil => exact whole
  | cons op ops ih => exact ih (run_partitioned whole allowed.1) allowed.2

/-- From a memory with no rings, whatever its links are, the operations build rings only. -/
theorem foldl_from_none (links : Links ν) (allowed : AllowedRun (fun _ => none) ops) :
    (ops.foldl run links).Partitioned (ops.foldl apply (fun _ => none)) := by
  apply foldl_partitioned ?_ allowed
  refine ⟨?_, ?_⟩
  · intro h l found
    cases found
  · intro h k x first
    obtain ⟨l, found, _⟩ := first
    cases found

end ListOp

end WindOs
