import Mathlib.Data.List.Basic
import Mathlib.Logic.Function.Basic
import Mathlib.Logic.Function.Iterate

namespace WindOs.Data

universe u

/-! # Circular doubly linked lists

A memory of list nodes is a pair of total maps.  `Path` is the segment
relation that the ring theorems are built from: it names the nodes strictly
between two end points, and the end points may coincide.
-/

@[ext] structure Links (ν : Type u) where
  prev : ν → ν
  next : ν → ν

namespace Links

variable {ν : Type u} {links other : Links ν} {a b h node new : ν} {xs ys l : List ν}

def Linked (links : Links ν) (a b : ν) : Prop :=
  links.next a = b ∧ links.prev b = a

def Path (links : Links ν) : ν → List ν → ν → Prop
  | a, [], b => links.Linked a b
  | a, x :: xs, b => links.Linked a x ∧ Path links x xs b

theorem path_append {y : ν} :
    links.Path a (xs ++ y :: ys) b ↔ links.Path a xs y ∧ links.Path y ys b := by
  induction xs generalizing a with
  | nil => rfl
  | cons x xs ih => simp only [List.cons_append, Path, ih, and_assoc]

theorem Path.next_start (path : links.Path a xs b) : links.next a = xs.headD b := by
  cases xs with
  | nil => exact path.1
  | cons x xs => exact path.1.1

theorem Path.prev_end (path : links.Path a xs b) : links.prev b = xs.getLastD a := by
  induction xs generalizing a with
  | nil => exact path.2
  | cons x xs ih => rw [ih path.2, List.getLastD_cons]

theorem Path.prev_mem (path : links.Path a xs b) : links.prev b ∈ a :: xs := by
  rw [path.prev_end]
  induction xs generalizing a with
  | nil => simp
  | cons x xs ih =>
      rw [List.getLastD_cons]
      exact List.mem_cons_of_mem _ (ih path.2)

theorem Path.next_mem (path : links.Path a xs b) : links.next a ∈ xs ++ [b] := by
  rw [path.next_start]
  cases xs <;> simp

/-- A segment only depends on the forward links that leave its nodes and the
backward links that enter them. -/
theorem Path.frame (path : links.Path a xs b)
    (forward : ∀ x ∈ a :: xs, other.next x = links.next x)
    (backward : ∀ x ∈ xs ++ [b], other.prev x = links.prev x) : other.Path a xs b := by
  induction xs generalizing a with
  | nil =>
      exact ⟨(forward a (by simp)).trans path.1, (backward b (by simp)).trans path.2⟩
  | cons x xs ih =>
      refine ⟨⟨(forward a (by simp)).trans path.1.1, (backward x (by simp)).trans path.1.2⟩, ?_⟩
      exact ih path.2 (fun y member => forward y (List.mem_cons_of_mem _ member))
        (fun y member => backward y (List.mem_cons_of_mem _ member))

/-- The nodes of `l`, read forward from the head `h`, form one ring with it. -/
structure IsRing (links : Links ν) (h : ν) (l : List ν) : Prop where
  nodup : (h :: l).Nodup
  path : links.Path h l h

theorem IsRing.frame (ring : links.IsRing h l)
    (forward : ∀ x ∈ h :: l, other.next x = links.next x)
    (backward : ∀ x ∈ h :: l, other.prev x = links.prev x) : other.IsRing h l :=
  ⟨ring.nodup, ring.path.frame forward (fun x member => backward x (by
    rcases List.mem_append.mp member with inside | head
    · exact List.mem_cons_of_mem _ inside
    · exact List.mem_cons.mpr (.inl (List.mem_singleton.mp head))))⟩

/-- The links differ at the given nodes only. -/
def AgreeOff (links other : Links ν) (nodes : List ν) : Prop :=
  ∀ x ∉ nodes, other.next x = links.next x ∧ other.prev x = links.prev x

theorem AgreeOff.refl (links : Links ν) (nodes : List ν) : links.AgreeOff links nodes :=
  fun _ _ => ⟨rfl, rfl⟩

theorem AgreeOff.trans {third : Links ν} {nodes : List ν} (first : links.AgreeOff other nodes)
    (second : other.AgreeOff third nodes) : links.AgreeOff third nodes :=
  fun x outside => ⟨(second x outside).1.trans (first x outside).1,
    (second x outside).2.trans (first x outside).2⟩

theorem AgreeOff.mono {nodes more : List ν} (agree : links.AgreeOff other nodes)
    (inside : nodes ⊆ more) : links.AgreeOff other more :=
  fun x outside => agree x (fun member => outside (inside member))

theorem IsRing.agreeOff {nodes : List ν} (ring : links.IsRing h l)
    (agree : links.AgreeOff other nodes) (apart : ∀ x ∈ h :: l, x ∉ nodes) : other.IsRing h l :=
  ring.frame (fun x member => (agree x (apart x member)).1)
    (fun x member => (agree x (apart x member)).2)

/-- Any member of a ring may serve as its head. -/
theorem IsRing.rotate (ring : links.IsRing h (xs ++ node :: ys)) :
    links.IsRing node (ys ++ h :: xs) := by
  obtain ⟨front, back⟩ := path_append.mp ring.path
  refine ⟨?_, path_append.mpr ⟨back, front⟩⟩
  have permuted : (node :: (ys ++ h :: xs)).Perm (h :: (xs ++ node :: ys)) :=
    calc node :: (ys ++ h :: xs) = (node :: ys) ++ (h :: xs) := rfl
      _ |>.Perm ((h :: xs) ++ (node :: ys)) := List.perm_append_comm
  exact permuted.nodup_iff.mpr ring.nodup

theorem IsRing.next_head (ring : links.IsRing h l) : links.next h = l.headD h :=
  ring.path.next_start

theorem IsRing.prev_head (ring : links.IsRing h l) : links.prev h = l.getLastD h :=
  ring.path.prev_end

theorem IsRing.next_member (ring : links.IsRing h (xs ++ node :: ys)) :
    links.next node = ys.headD h :=
  (path_append.mp ring.path).2.next_start

theorem IsRing.prev_member (ring : links.IsRing h (xs ++ node :: ys)) :
    links.prev node = xs.getLastD h :=
  (path_append.mp ring.path).1.prev_end

/-- The node behind a part of the ring. -/
theorem IsRing.next_last (ring : links.IsRing h (xs ++ ys)) :
    links.next (xs.getLastD h) = ys.headD h := by
  cases List.eq_nil_or_concat xs with
  | inl empty =>
      subst empty
      exact ring.next_head
  | inr more =>
      obtain ⟨front, last, rfl⟩ := more
      rw [List.concat_append] at ring
      simpa using ring.next_member

theorem IsRing.prev_closed (ring : links.IsRing h l) (member : node ∈ h :: l) :
    links.prev node ∈ h :: l := by
  cases List.mem_cons.mp member with
  | inl head =>
      rw [head]
      exact ring.path.prev_mem
  | inr inside =>
      obtain ⟨front, back, rfl⟩ := List.append_of_mem inside
      have before := ring.rotate.path.prev_mem
      simp only [List.mem_cons, List.mem_append] at before ⊢
      tauto

theorem IsRing.next_closed (ring : links.IsRing h l) (member : node ∈ h :: l) :
    links.next node ∈ h :: l := by
  cases List.mem_cons.mp member with
  | inl head =>
      have after := ring.path.next_mem
      rw [head]
      simp only [List.mem_append, List.mem_cons] at after ⊢
      tauto
  | inr inside =>
      obtain ⟨front, back, rfl⟩ := List.append_of_mem inside
      have after := ring.rotate.path.next_mem
      simp only [List.mem_cons, List.mem_append] at after ⊢
      tauto

theorem Path.unique {zs : List ν} (path : links.Path a xs b) (again : links.Path a zs b)
    (outside : b ∉ xs) (outsideAgain : b ∉ zs) : xs = zs := by
  induction xs generalizing a zs with
  | nil =>
      cases zs with
      | nil => rfl
      | cons z zs =>
          have same : b = z := path.1.symm.trans again.1.1
          exact absurd (same ▸ List.mem_cons_self) outsideAgain
  | cons x xs ih =>
      cases zs with
      | nil =>
          have same : x = b := path.1.1.symm.trans again.1
          exact absurd (same ▸ List.mem_cons_self) outside
      | cons z zs =>
          have same : x = z := path.1.1.symm.trans again.1.1
          subst same
          rw [ih path.2 again.2 (fun member => outside (List.mem_cons_of_mem _ member))
            (fun member => outsideAgain (List.mem_cons_of_mem _ member))]

/-- The head determines the node sequence of its ring. -/
theorem IsRing.unique {l' : List ν} (ring : links.IsRing h l) (again : links.IsRing h l') :
    l = l' :=
  ring.path.unique again.path (List.nodup_cons.mp ring.nodup).1 (List.nodup_cons.mp again.nodup).1

theorem Path.reached {x : ν} (path : links.Path a xs b) (member : x ∈ xs) :
    ∃ rounds, links.next^[rounds] a = x := by
  induction xs generalizing a with
  | nil => cases member
  | cons first rest ih =>
      cases List.mem_cons.mp member with
      | inl here => exact ⟨1, path.1.1.trans here.symm⟩
      | inr later =>
          obtain ⟨rounds, reached⟩ := ih path.2 later
          refine ⟨rounds + 1, ?_⟩
          rw [Function.iterate_succ_apply, path.1.1]
          exact reached

/-- The nodes of a ring are those that `next` leads to. -/
theorem IsRing.reached_iff {x : ν} (ring : links.IsRing h l) :
    (∃ rounds, links.next^[rounds] h = x) ↔ x ∈ h :: l := by
  constructor
  · rintro ⟨rounds, rfl⟩
    induction rounds with
    | zero => exact List.mem_cons_self
    | succ rounds ih =>
        rw [Function.iterate_succ_apply']
        exact ring.next_closed ih
  · intro member
    cases List.mem_cons.mp member with
    | inl head => exact ⟨0, head.symm⟩
    | inr inside => exact ring.path.reached inside

section Update

variable [DecidableEq ν]

def setNext (links : Links ν) (node value : ν) : Links ν :=
  { links with next := Function.update links.next node value }

def setPrev (links : Links ν) (node value : ν) : Links ν :=
  { links with prev := Function.update links.prev node value }

@[simp] theorem setNext_prev {value : ν} : (links.setNext node value).prev = links.prev := rfl

@[simp] theorem setPrev_next {value : ν} : (links.setPrev node value).next = links.next := rfl

@[simp] theorem setNext_next {value x : ν} :
    (links.setNext node value).next x = if x = node then value else links.next x := by
  simp [setNext, Function.update_apply]

@[simp] theorem setPrev_prev {value x : ν} :
    (links.setPrev node value).prev x = if x = node then value else links.prev x := by
  simp [setPrev, Function.update_apply]

/-- Put `new` between the neighbours `a` and `b`. -/
def splice (links : Links ν) (a new b : ν) : Links ν where
  next := Function.update (Function.update links.next a new) new b
  prev := Function.update (Function.update links.prev b new) new a

/-- Join the two neighbours of a node.  The node keeps its own links. -/
def unlink (links : Links ν) (node : ν) : Links ν where
  next := Function.update links.next (links.prev node) (links.next node)
  prev := Function.update links.prev (links.next node) (links.prev node)

theorem splice_next {x : ν} : (links.splice a new b).next x =
    if x = new then b else if x = a then new else links.next x := by
  simp [splice, Function.update_apply]

theorem splice_prev {x : ν} : (links.splice a new b).prev x =
    if x = new then a else if x = b then new else links.prev x := by
  simp [splice, Function.update_apply]

theorem unlink_next {x : ν} : (links.unlink node).next x =
    if x = links.prev node then links.next node else links.next x := by
  simp [unlink, Function.update_apply]

theorem unlink_prev {x : ν} : (links.unlink node).prev x =
    if x = links.next node then links.prev node else links.prev x := by
  simp [unlink, Function.update_apply]

theorem Path.splice_end (path : links.Path a xs b) (nodup : (a :: xs).Nodup) (outside : b ∉ xs)
    (fresh : new ∉ a :: xs) (notEnd : new ≠ b) :
    (links.splice (links.prev b) new b).Path a (xs ++ [new]) b := by
  induction xs generalizing a with
  | nil =>
      have different : a ≠ new := fun same => fresh (by simp [same])
      have before : links.prev b = a := path.2
      simp only [List.nil_append, Path, Linked, splice_next, splice_prev, before]
      simp [different, Ne.symm notEnd]
  | cons x xs ih =>
      have tail := ih path.2 (List.nodup_cons.mp nodup).2
        (fun member => outside (List.mem_cons_of_mem _ member))
        (fun member => fresh (List.mem_cons_of_mem _ member))
      refine ⟨⟨?_, ?_⟩, tail⟩
      · have notNew : a ≠ new := fun same => fresh (by simp [same])
        have notLast : a ≠ links.prev b := fun same =>
          (List.nodup_cons.mp nodup).1 (same ▸ path.2.prev_mem)
        rw [splice_next, if_neg notNew, if_neg notLast]
        exact path.1.1
      · have notNew : x ≠ new := fun same => fresh (by simp [same])
        have notEnd : x ≠ b := fun same => outside (by simp [same])
        rw [splice_prev, if_neg notNew, if_neg notEnd]
        exact path.1.2

theorem Path.splice_start (path : links.Path a xs b) (nodup : (a :: xs).Nodup) (outside : b ∉ xs)
    (fresh : new ∉ a :: xs) (notEnd : new ≠ b) :
    (links.splice a new (links.next a)).Path a (new :: xs) b := by
  have notStart : a ≠ new := fun same => fresh (by simp [same])
  have first : (links.splice a new (links.next a)).Linked a new := by
    simp [Linked, splice_next, splice_prev, notStart]
  refine ⟨first, ?_⟩
  cases xs with
  | nil =>
      have after : links.next a = b := path.1
      simp [Path, Linked, splice_next, splice_prev, after, Ne.symm notEnd]
  | cons x xs =>
      have after : links.next a = x := path.1.1
      have notNew : x ≠ new := fun same => fresh (by simp [same])
      refine ⟨by simp [Linked, splice_next, splice_prev, after, notNew], ?_⟩
      apply path.2.frame
      · intro y member
        have notA : y ≠ a := fun same => (List.nodup_cons.mp nodup).1 (same ▸ member)
        have notNew : y ≠ new := fun same => fresh (List.mem_cons_of_mem _ (same ▸ member))
        rw [splice_next, if_neg notNew, if_neg notA]
      · intro y member
        have notNew : y ≠ new := by
          rcases List.mem_append.mp member with inside | last
          · exact fun same => fresh (by simp [← same, inside])
          · exact fun same => notEnd ((same.symm.trans (List.mem_singleton.mp last)))
        have notX : y ≠ x := by
          rcases List.mem_append.mp member with inside | last
          · exact fun same =>
              (List.nodup_cons.mp (List.nodup_cons.mp nodup).2).1 (same ▸ inside)
          · exact fun same => outside (by simp [← List.mem_singleton.mp last, same])
        rw [splice_prev, if_neg notNew, after, if_neg notX]

theorem Path.unlink (front : links.Path a xs node) (back : links.Path node ys b)
    (nodup : (a :: xs ++ node :: ys).Nodup) (outside : b ∉ xs ++ node :: ys) :
    (links.unlink node).Path a (xs ++ ys) b := by
  induction xs generalizing a with
  | nil =>
      have before : links.prev node = a := front.2
      cases ys with
      | nil =>
          have after : links.next node = b := back.1
          simp [Path, Linked, unlink_next, unlink_prev, before, after]
      | cons y ys =>
          have after : links.next node = y := back.1.1
          refine ⟨by simp [Linked, unlink_next, unlink_prev, before, after], back.2.frame ?_ ?_⟩
          · intro z member
            have notA : z ≠ a := fun same =>
              (List.nodup_cons.mp nodup).1 (List.mem_cons_of_mem _ (same ▸ member))
            rw [unlink_next, before, if_neg notA]
          · intro z member
            have notY : z ≠ y := by
              rcases List.mem_append.mp member with inside | last
              · intro same
                have tail := (List.nodup_cons.mp (List.nodup_cons.mp nodup).2).2
                exact (List.nodup_cons.mp tail).1 (same ▸ inside)
              · exact fun same => outside (by simp [← List.mem_singleton.mp last, same])
            rw [unlink_prev, after, if_neg notY]
  | cons x xs ih =>
      have tail := ih front.2 (List.nodup_cons.mp nodup).2
        (fun member => outside (List.mem_cons_of_mem _ member))
      refine ⟨⟨?_, ?_⟩, tail⟩
      · have notLast : a ≠ links.prev node := fun same =>
          (List.nodup_cons.mp nodup).1 (List.mem_append_left _ (same ▸ front.2.prev_mem))
        rw [unlink_next, if_neg notLast]
        exact front.1.1
      · have notFirst : x ≠ links.next node := by
          intro same
          rcases List.mem_append.mp (same ▸ back.next_mem) with inside | last
          · have distinct := (List.nodup_cons.mp (List.nodup_cons.mp nodup).2).1
            exact distinct (by simp [inside])
          · exact outside (by simp [← List.mem_singleton.mp last])
        rw [unlink_prev, if_neg notFirst]
        exact front.1.2

theorem IsRing.insert_before (ring : links.IsRing h (xs ++ node :: ys))
    (fresh : new ∉ h :: (xs ++ node :: ys)) :
    (links.splice (links.prev node) new node).IsRing h (xs ++ new :: node :: ys) := by
  obtain ⟨front, back⟩ := path_append.mp ring.path
  obtain ⟨headOut, inner⟩ := List.nodup_cons.mp ring.nodup
  obtain ⟨nodupFront, nodupBack, apart⟩ := List.nodup_append.mp inner
  obtain ⟨nodeOut, _⟩ := List.nodup_cons.mp nodupBack
  simp only [List.mem_cons, List.mem_append, not_or] at fresh headOut
  have frontEnd : node ∉ xs := fun member => apart node member node (by simp) rfl
  have spliced : (links.splice (links.prev node) new node).Path h (xs ++ [new]) node :=
    front.splice_end (List.nodup_cons.mpr ⟨headOut.1, nodupFront⟩) frontEnd
      (by simp [fresh.1, fresh.2.1]) fresh.2.2.1
  refine ⟨?_, ?_⟩
  · simp only [List.nodup_cons, List.mem_append, List.mem_cons, not_or, List.nodup_append]
    simp only [List.nodup_cons] at nodupBack
    refine ⟨⟨headOut.1, fun same => fresh.1 same.symm, headOut.2⟩, nodupFront,
      ⟨⟨fresh.2.2.1, fresh.2.2.2⟩, nodupBack⟩, ?_⟩
    intro x member y later
    rcases later with rfl | later
    · exact fun same => fresh.2.1 (same ▸ member)
    · exact apart x member y (by simpa using later)
  · have tail : (links.splice (links.prev node) new node).Path node ys h := by
      apply back.frame
      · intro x member
        have notNew : x ≠ new := fun same => by
          rcases List.mem_cons.mp member with rfl | inside
          · exact fresh.2.2.1 same.symm
          · exact fresh.2.2.2 (same ▸ inside)
        have notPrev : x ≠ links.prev node := fun same => by
          rcases List.mem_cons.mp (same ▸ front.prev_mem) with rfl | inside
          · exact (by simpa using headOut.2 : ¬ x ∈ node :: ys) member
          · exact apart x inside x member rfl
        rw [splice_next, if_neg notNew, if_neg notPrev]
      · intro x member
        have notNew : x ≠ new := fun same => by
          rcases List.mem_append.mp member with inside | last
          · exact fresh.2.2.2 (same ▸ inside)
          · exact fresh.1 (same.symm.trans (List.mem_singleton.mp last))
        have notNode : x ≠ node := fun same => by
          rcases List.mem_append.mp member with inside | last
          · exact nodeOut (same ▸ inside)
          · exact headOut.2.1 ((List.mem_singleton.mp last).symm.trans same)
        rw [splice_prev, if_neg notNew, if_neg notNode]
    have joined := path_append.mpr ⟨spliced, tail⟩
    simpa using joined

/-- Inserting before the head puts the new node last. -/
theorem IsRing.insert_last (ring : links.IsRing h l) (fresh : new ∉ h :: l) :
    (links.splice (links.prev h) new h).IsRing h (l ++ [new]) := by
  have headOut := (List.nodup_cons.mp ring.nodup).1
  refine ⟨?_, ring.path.splice_end ring.nodup headOut fresh (fun same => fresh (by simp [same]))⟩
  have permuted : (h :: (l ++ [new])).Perm (new :: h :: l) := by
    simpa only [List.cons_append, List.nil_append] using
      (List.perm_append_singleton new (h :: l))
  exact permuted.nodup_iff.mpr (List.nodup_cons.mpr ⟨fresh, ring.nodup⟩)

/-- Inserting after the head puts the new node first. -/
theorem IsRing.insert_first (ring : links.IsRing h l) (fresh : new ∉ h :: l) :
    (links.splice h new (links.next h)).IsRing h (new :: l) := by
  have headOut := (List.nodup_cons.mp ring.nodup).1
  refine ⟨?_, ring.path.splice_start ring.nodup headOut fresh (fun same => fresh (by simp [same]))⟩
  exact (List.Perm.swap new h l).nodup_iff.mpr (List.nodup_cons.mpr ⟨fresh, ring.nodup⟩)

/-- Inserting after a member is inserting before its successor. -/
theorem IsRing.insert_after (ring : links.IsRing h (xs ++ node :: ys))
    (fresh : new ∉ h :: (xs ++ node :: ys)) :
    (links.splice node new (links.next node)).IsRing h (xs ++ node :: new :: ys) := by
  have rotated := ring.rotate
  have freshRotated : new ∉ node :: (ys ++ h :: xs) := by
    simp only [List.mem_cons, List.mem_append, not_or] at fresh ⊢
    exact ⟨fresh.2.2.1, fresh.2.2.2, fresh.1, fresh.2.1⟩
  have first := rotated.insert_first freshRotated
  have split : (links.splice node new (links.next node)).IsRing node ((new :: ys) ++ h :: xs) := first
  exact split.rotate

theorem IsRing.delete (ring : links.IsRing h (xs ++ node :: ys)) :
    (links.unlink node).IsRing h (xs ++ ys) := by
  obtain ⟨front, back⟩ := path_append.mp ring.path
  refine ⟨?_, front.unlink back ring.nodup (List.nodup_cons.mp ring.nodup).1⟩
  exact ring.nodup.sublist ((List.sublist_append_right [node] ys).append_left xs |>.cons_cons h)

theorem splice_agreeOff : links.AgreeOff (links.splice a new b) [new, a, b] := by
  intro x outside
  simp only [List.mem_cons, List.not_mem_nil, or_false, not_or] at outside
  rw [splice_next, splice_prev, if_neg outside.1, if_neg outside.2.1, if_neg outside.1,
    if_neg outside.2.2]
  exact ⟨rfl, rfl⟩

theorem unlink_agreeOff :
    links.AgreeOff (links.unlink node) [links.prev node, links.next node] := by
  intro x outside
  simp only [List.mem_cons, List.not_mem_nil, or_false, not_or] at outside
  rw [unlink_next, unlink_prev, if_neg outside.1, if_neg outside.2]
  exact ⟨rfl, rfl⟩

/-- Edits inside one ring leave a ring with other nodes as it is. -/
theorem IsRing.splice_frame (ring : links.IsRing h l)
    (newOut : new ∉ h :: l) (aOut : a ∉ h :: l) (bOut : b ∉ h :: l) :
    (links.splice a new b).IsRing h l := by
  apply ring.agreeOff splice_agreeOff
  intro x member
  simp only [List.mem_cons, List.not_mem_nil, or_false, not_or]
  exact ⟨ne_of_mem_of_not_mem member newOut, ne_of_mem_of_not_mem member aOut,
    ne_of_mem_of_not_mem member bOut⟩

theorem IsRing.unlink_frame (ring : links.IsRing h l)
    (prevOut : links.prev node ∉ h :: l) (nextOut : links.next node ∉ h :: l) :
    (links.unlink node).IsRing h l := by
  apply ring.agreeOff unlink_agreeOff
  intro x member
  simp only [List.mem_cons, List.not_mem_nil, or_false, not_or]
  exact ⟨ne_of_mem_of_not_mem member prevOut, ne_of_mem_of_not_mem member nextOut⟩

end Update

end Links

end WindOs.Data
