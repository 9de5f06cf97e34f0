import WindOs.Data.Ring

namespace WindOs

open Data

universe u

variable {ν : Type u} [DecidableEq ν] {links : Links ν} {h node new : ν} {xs ys l : List ν}

/-! # list.h

The four list operations as the sequences of assignments they are: every read
goes to the links that the assignments before it have left.
-/

def listInit (links : Links ν) (node : ν) : Links ν :=
  (links.setPrev node node).setNext node node

def listInsertBefore (links : Links ν) (node new : ν) : Links ν :=
  let links := links.setPrev new (links.prev node)
  let links := links.setNext (links.prev node) new
  let links := links.setNext new node
  links.setPrev node new

def listInsertAfter (links : Links ν) (node new : ν) : Links ν :=
  let links := links.setNext new (links.next node)
  let links := links.setPrev (links.next node) new
  let links := links.setPrev new node
  links.setNext node new

def listDelete (links : Links ν) (node : ν) : Links ν :=
  let links := links.setPrev (links.next node) (links.prev node)
  links.setNext (links.prev node) (links.next node)

theorem listInsertBefore_eq_splice (different : new ≠ node) :
    listInsertBefore links node new = links.splice (links.prev node) new node := by
  ext x
  · simp only [listInsertBefore, Links.setPrev_prev, Links.setNext_prev, Links.splice_prev]
    by_cases same : x = node
    · simp [same, Ne.symm different]
    · simp [same]
  · simp only [listInsertBefore, Links.setPrev_next, Links.setNext_next, Links.setPrev_prev,
      Links.splice_next, if_neg different.symm]

theorem listInsertAfter_eq_splice (different : new ≠ node) :
    listInsertAfter links node new = links.splice node new (links.next node) := by
  ext x
  · simp only [listInsertAfter, Links.setPrev_prev, Links.setNext_prev, Links.setNext_next,
      Links.splice_prev, if_neg different.symm]
  · simp only [listInsertAfter, Links.setPrev_next, Links.setNext_next, Links.splice_next]
    by_cases same : x = node
    · simp [same, Ne.symm different]
    · simp [same]

theorem listDelete_eq_unlink : listDelete links node = links.unlink node := by
  -- The first assignment may hit the node itself, but only with its own value.
  have before : (links.setPrev (links.next node) (links.prev node)).prev node = links.prev node := by
    simp
  ext x
  · simp only [listDelete, Links.setNext_prev, Links.setPrev_prev, Links.unlink_prev]
  · simp only [listDelete, before, Links.setNext_next, Links.setPrev_next, Links.unlink_next]

theorem listInit_ring : (listInit links node).IsRing node [] :=
  ⟨by simp, by simp [Links.Path, Links.Linked, listInit]⟩

theorem listInsertBefore_ring (ring : links.IsRing h (xs ++ node :: ys))
    (fresh : new ∉ h :: (xs ++ node :: ys)) :
    (listInsertBefore links node new).IsRing h (xs ++ new :: node :: ys) := by
  rw [listInsertBefore_eq_splice (fun same => fresh (by simp [same]))]
  exact ring.insert_before fresh

theorem listInsertBefore_head_ring (ring : links.IsRing h l) (fresh : new ∉ h :: l) :
    (listInsertBefore links h new).IsRing h (l ++ [new]) := by
  rw [listInsertBefore_eq_splice (fun same => fresh (by simp [same]))]
  exact ring.insert_last fresh

theorem listInsertAfter_ring (ring : links.IsRing h (xs ++ node :: ys))
    (fresh : new ∉ h :: (xs ++ node :: ys)) :
    (listInsertAfter links node new).IsRing h (xs ++ node :: new :: ys) := by
  rw [listInsertAfter_eq_splice (fun same => fresh (by simp [same]))]
  exact ring.insert_after fresh

theorem listInsertAfter_head_ring (ring : links.IsRing h l) (fresh : new ∉ h :: l) :
    (listInsertAfter links h new).IsRing h (new :: l) := by
  rw [listInsertAfter_eq_splice (fun same => fresh (by simp [same]))]
  exact ring.insert_first fresh

theorem listDelete_ring (ring : links.IsRing h (xs ++ node :: ys)) :
    (listDelete links node).IsRing h (xs ++ ys) := by
  rw [listDelete_eq_unlink]
  exact ring.delete

theorem listInit_agreeOff : links.AgreeOff (listInit links node) [node] := by
  intro x outside
  simp only [List.mem_singleton] at outside
  simp [listInit, outside]

/-- An insertion into a ring writes to its nodes and the new one. -/
theorem listInsertBefore_agreeOff (ring : links.IsRing h l) (member : node ∈ h :: l)
    (fresh : new ∉ h :: l) :
    links.AgreeOff (listInsertBefore links node new) (new :: h :: l) := by
  have different : new ≠ node := fun same => fresh (same ▸ member)
  have before := ring.prev_closed member
  rw [listInsertBefore_eq_splice different]
  apply Links.splice_agreeOff.mono
  exact List.cons_subset_cons new (List.cons_subset.mpr ⟨before,
    List.cons_subset.mpr ⟨member, List.nil_subset _⟩⟩)

theorem listInsertAfter_agreeOff (ring : links.IsRing h l) (member : node ∈ h :: l)
    (fresh : new ∉ h :: l) :
    links.AgreeOff (listInsertAfter links node new) (new :: h :: l) := by
  have different : new ≠ node := fun same => fresh (same ▸ member)
  have after := ring.next_closed member
  rw [listInsertAfter_eq_splice different]
  apply Links.splice_agreeOff.mono
  exact List.cons_subset_cons new (List.cons_subset.mpr ⟨member,
    List.cons_subset.mpr ⟨after, List.nil_subset _⟩⟩)

theorem listDelete_agreeOff (ring : links.IsRing h l) (member : node ∈ h :: l) :
    links.AgreeOff (listDelete links node) (h :: l) := by
  have before := ring.prev_closed member
  have after := ring.next_closed member
  rw [listDelete_eq_unlink]
  apply Links.unlink_agreeOff.mono
  exact List.cons_subset.mpr ⟨before, List.cons_subset.mpr ⟨after, List.nil_subset _⟩⟩

end WindOs
