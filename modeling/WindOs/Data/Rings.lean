import WindOs.Data.Ring

namespace WindOs.Data

universe u

/-! # Families of rings

A memory of list nodes may hold any number of rings.  A family gives the node
sequence of each ring at its head, read forward; a node that no ring owns is
loose, whatever its own links are.
-/

section Sequence

variable {ν : Type u} [DecidableEq ν] {node new : ν} {xs ys : List ν}

/-- `new` just before `node`, in a sequence that holds `node` once. -/
def insertBefore (node new : ν) : List ν → List ν
  | [] => []
  | x :: l => if x = node then new :: x :: l else x :: insertBefore node new l

/-- `new` just after `node`, in a sequence that holds `node` once. -/
def insertAfter (node new : ν) : List ν → List ν
  | [] => []
  | x :: l => if x = node then x :: new :: l else x :: insertAfter node new l

theorem insertBefore_split (outside : node ∉ xs) :
    insertBefore node new (xs ++ node :: ys) = xs ++ new :: node :: ys := by
  induction xs with
  | nil => simp [insertBefore]
  | cons x xs ih =>
      obtain ⟨different, later⟩ := not_or.mp (fun either => outside (List.mem_cons.mpr either))
      simp only [List.cons_append, insertBefore, if_neg (Ne.symm different), ih later]

theorem insertBefore_subset (l : List ν) : insertBefore node new l ⊆ new :: l := by
  induction l with
  | nil => exact List.nil_subset _
  | cons x l ih =>
      rw [insertBefore]
      split
      · exact List.Subset.refl _
      · rw [List.cons_subset]
        exact ⟨by simp, List.Subset.trans ih (List.cons_subset_cons new (List.subset_cons_self x l))⟩

theorem insertAfter_split (outside : node ∉ xs) :
    insertAfter node new (xs ++ node :: ys) = xs ++ node :: new :: ys := by
  induction xs with
  | nil => simp [insertAfter]
  | cons x xs ih =>
      obtain ⟨different, later⟩ := not_or.mp (fun either => outside (List.mem_cons.mpr either))
      simp only [List.cons_append, insertAfter, if_neg (Ne.symm different), ih later]

theorem insertAfter_subset (l : List ν) : insertAfter node new l ⊆ new :: l := by
  induction l with
  | nil => exact List.nil_subset _
  | cons x l ih =>
      rw [insertAfter]
      split
      · exact (List.Perm.swap new x l).subset
      · rw [List.cons_subset]
        exact ⟨by simp, List.Subset.trans ih (List.cons_subset_cons new (List.subset_cons_self x l))⟩

theorem erase_split (outside : node ∉ xs) : (xs ++ node :: ys).erase node = xs ++ ys := by
  rw [List.erase_append_right _ outside, List.erase_cons_head]

end Sequence

section Family

variable {ν : Type u} {links other : Links ν} {rings : ν → Option (List ν)} {h k x : ν}
  {l l' : List ν}

def Owns (rings : ν → Option (List ν)) (h x : ν) : Prop :=
  ∃ l, rings h = some l ∧ x ∈ h :: l

def Loose (rings : ν → Option (List ν)) (x : ν) : Prop :=
  ∀ h, ¬ Owns rings h x

theorem Owns.member (owned : Owns rings h x) (found : rings h = some l) : x ∈ h :: l := by
  obtain ⟨l', foundAgain, inside⟩ := owned
  cases found.symm.trans foundAgain
  exact inside

theorem Loose.not_mem (loose : Loose rings x) (found : rings h = some l) : x ∉ h :: l :=
  fun inside => loose h ⟨l, found, inside⟩

/-- Every sequence of the family is a ring of the memory, and no node is on two of them. -/
structure Links.Partitioned (links : Links ν) (rings : ν → Option (List ν)) : Prop where
  ring : ∀ h l, rings h = some l → links.IsRing h l
  apart : ∀ h k x, Owns rings h x → Owns rings k x → h = k

namespace Links

theorem Path.prev_next (path : links.Path h l k) : links.prev (links.next h) = h := by
  cases l with
  | nil => rw [path.1, path.2]
  | cons x l => rw [path.1.1, path.1.2]

theorem Path.next_prev (path : links.Path h l k) : links.next (links.prev k) = k := by
  induction l generalizing h with
  | nil => rw [path.2, path.1]
  | cons x l ih => exact ih path.2

/-- On the nodes of a ring the two links are inverse to each other. -/
theorem IsRing.inverse (ring : links.IsRing h l) (member : x ∈ h :: l) :
    links.prev (links.next x) = x ∧ links.next (links.prev x) = x := by
  cases List.mem_cons.mp member with
  | inl head =>
      rw [head]
      exact ⟨ring.path.prev_next, ring.path.next_prev⟩
  | inr inside =>
      obtain ⟨front, back, rfl⟩ := List.append_of_mem inside
      have rotated := ring.rotate
      exact ⟨rotated.path.prev_next, rotated.path.next_prev⟩

theorem IsRing.split (ring : links.IsRing h l) (inside : x ∈ l) :
    ∃ front back, l = front ++ x :: back ∧ x ∉ front ∧ x ≠ h := by
  obtain ⟨headOut, inner⟩ := List.nodup_cons.mp ring.nodup
  obtain ⟨front, back, rfl⟩ := List.append_of_mem inside
  obtain ⟨_, _, apart⟩ := List.nodup_append.mp inner
  exact ⟨front, back, rfl, fun member => apart x member x List.mem_cons_self rfl,
    fun same => headOut (same ▸ inside)⟩

theorem Partitioned.inverse (whole : links.Partitioned rings) (owned : Owns rings h x) :
    links.prev (links.next x) = x ∧ links.next (links.prev x) = x := by
  obtain ⟨l, found, member⟩ := owned
  exact (whole.ring h l found).inverse member

end Links

/-- The ring at `h` is written to hold `l`.  The writes are at `nodes`, and no other ring owns
one of these or a node of `l`. -/
structure RingWrite (links other : Links ν) (rings : ν → Option (List ν)) (h : ν)
    (l nodes : List ν) : Prop where
  ring : other.IsRing h l
  agree : links.AgreeOff other nodes
  outside : ∀ k x, k ≠ h → Owns rings k x → x ∉ nodes
  members : ∀ k x, k ≠ h → Owns rings k x → x ∉ h :: l

/-- A ring that is rebuilt from its own nodes and loose ones. -/
theorem RingWrite.within {fresh : List ν} (whole : links.Partitioned rings)
    (found : rings h = some l) (loose : ∀ x ∈ fresh, Loose rings x) (ring : other.IsRing h l')
    (agree : links.AgreeOff other (fresh ++ h :: l)) (inside : l' ⊆ fresh ++ h :: l) :
    RingWrite links other rings h l' (fresh ++ h :: l) := by
  have outside : ∀ k x, k ≠ h → Owns rings k x → x ∉ fresh ++ h :: l := by
    intro k x different owned member
    cases List.mem_append.mp member with
    | inl isFresh => exact loose x isFresh k owned
    | inr old => exact different (whole.apart k h x owned ⟨l, found, old⟩)
  refine ⟨ring, agree, outside, ?_⟩
  intro k x different owned member
  cases List.mem_cons.mp member with
  | inl head => exact outside k x different owned (by simp [head])
  | inr later => exact outside k x different owned (inside later)

/-- The other rings keep all their links. -/
theorem RingWrite.kept {nodes : List ν} (write : RingWrite links other rings h l nodes)
    (different : k ≠ h) (owned : Owns rings k x) :
    other.next x = links.next x ∧ other.prev x = links.prev x :=
  write.agree x (write.outside k x different owned)

section Update

variable [DecidableEq ν]

theorem owns_update_self : Owns (Function.update rings h (some l)) h x ↔ x ∈ h :: l := by
  simp [Owns]

theorem owns_update_of_ne (different : k ≠ h) :
    Owns (Function.update rings h (some l)) k x ↔ Owns rings k x := by
  simp only [Owns, Function.update_of_ne different]

theorem RingWrite.partitioned {nodes : List ν} (whole : links.Partitioned rings)
    (write : RingWrite links other rings h l nodes) :
    other.Partitioned (Function.update rings h (some l)) := by
  refine ⟨?_, ?_⟩
  · intro k l' found
    by_cases same : k = h
    · subst same
      cases (Function.update_self k (some l) rings).symm.trans found
      exact write.ring
    · rw [Function.update_of_ne same] at found
      exact (whole.ring k l' found).agreeOff write.agree
        (fun x inside => write.outside k x same ⟨l', found, inside⟩)
  · intro j k x first second
    -- Two owners that are not both the written ring would share a node in the old family.
    by_cases atJ : j = h
    · by_cases atK : k = h
      · rw [atJ, atK]
      · rw [atJ, owns_update_self] at first
        exact absurd first (write.members k x atK ((owns_update_of_ne atK).mp second))
    · rw [owns_update_of_ne atJ] at first
      by_cases atK : k = h
      · rw [atK, owns_update_self] at second
        exact absurd second (write.members j x atJ first)
      · exact whole.apart j k x first ((owns_update_of_ne atK).mp second)

variable {node : ν} {change : ν → List ν → List ν}

/-- `change` is applied to the head and the sequence of the ring that holds `node`. -/
def editRing (rings : ν → Option (List ν)) (node : ν) (change : ν → List ν → List ν) (h : ν) :
    Option (List ν) :=
  (rings h).map (fun l => if node ∈ h :: l then change h l else l)

theorem editRing_other (found : rings h = some l) (outside : node ∉ h :: l) :
    editRing rings node change h = some l := by
  simp only [editRing, found, Option.map_some, if_neg outside]

theorem Links.Partitioned.editRing_eq (whole : links.Partitioned rings) (found : rings h = some l)
    (member : node ∈ h :: l) :
    editRing rings node change = Function.update rings h (some (change h l)) := by
  funext k
  by_cases same : k = h
  · subst same
    simp only [editRing, found, Option.map_some, if_pos member, Function.update_self]
  · rw [Function.update_of_ne same]
    cases foundOther : rings k with
    | none => simp [editRing, foundOther]
    | some other =>
        exact editRing_other foundOther
          (fun inside => same (whole.apart k h node ⟨other, foundOther, inside⟩ ⟨l, found, member⟩))

end Update

end Family

end WindOs.Data
