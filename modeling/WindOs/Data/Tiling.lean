import Mathlib.Data.List.Basic
import Mathlib.Data.List.Chain
import Mathlib.Order.Lattice

namespace WindOs.Data

universe u v

/-! # Pieces that share no point, and tilings

A list of pieces stands for the points its members hold.  Nothing is assumed
about points; intervals come in with `Tiles`, where each piece begins where the
one before it ended.
-/

section Pieces

variable {α : Type u} {β : Type v} {holds : α → β → Prop}
variable {front back old new pieces : List α} {point : β}

def Covered (holds : α → β → Prop) (pieces : List α) (point : β) : Prop :=
  ∃ piece ∈ pieces, holds piece point

def Apart (holds : α → β → Prop) (pieces : List α) : Prop :=
  pieces.Pairwise fun first second => ∀ point, holds first point → ¬ holds second point

theorem covered_append :
    Covered holds (front ++ back) point ↔ Covered holds front point ∨ Covered holds back point := by
  simp [Covered, or_and_right, exists_or]

theorem covered_cons {piece : α} :
    Covered holds (piece :: pieces) point ↔ holds piece point ∨ Covered holds pieces point := by
  simp [Covered]

@[simp] theorem not_covered_nil : ¬ Covered holds [] point := by
  simp [Covered]

theorem apart_append : Apart holds (front ++ back) ↔
    Apart holds front ∧ Apart holds back ∧
      ∀ point, Covered holds front point → ¬ Covered holds back point := by
  simp only [Apart, List.pairwise_append, Covered]
  constructor
  · rintro ⟨first, second, across⟩
    refine ⟨first, second, ?_⟩
    rintro point ⟨a, inFront, holdsA⟩ ⟨b, inBack, holdsB⟩
    exact across a inFront b inBack point holdsA holdsB
  · rintro ⟨first, second, across⟩
    refine ⟨first, second, ?_⟩
    intro a inFront b inBack point holdsA holdsB
    exact across point ⟨a, inFront, holdsA⟩ ⟨b, inBack, holdsB⟩

/-- A run of pieces may be exchanged for pieces that hold the same points. -/
theorem Apart.replace (apart : Apart holds (front ++ old ++ back)) (inner : Apart holds new)
    (same : ∀ point, Covered holds new point ↔ Covered holds old point) :
    Apart holds (front ++ new ++ back) := by
  simp only [apart_append, covered_append, same] at apart ⊢
  exact ⟨⟨apart.1.1, inner, apart.1.2.2⟩, apart.2⟩

theorem covered_replace (same : ∀ point, Covered holds new point ↔ Covered holds old point) :
    Covered holds (front ++ new ++ back) point ↔ Covered holds (front ++ old ++ back) point := by
  simp only [covered_append, same]

theorem Apart.unique {a b : α} (apart : Apart holds pieces) (first : a ∈ pieces)
    (second : b ∈ pieces) (holdsA : holds a point) (holdsB : holds b point) : a = b := by
  induction pieces with
  | nil => contradiction
  | cons piece pieces ih =>
      obtain ⟨here, rest⟩ := List.pairwise_cons.mp apart
      cases first with
      | head =>
          cases second with
          | head => rfl
          | tail _ later => exact absurd holdsB (here b later point holdsA)
      | tail _ inside =>
          cases second with
          | head => exact absurd holdsA (here a inside point holdsB)
          | tail _ later => exact ih rest inside later

theorem Apart.erase [BEq α] [LawfulBEq α] {a : α} (apart : Apart holds pieces) (member : a ∈ pieces) :
    Apart holds (pieces.erase a) ∧
      ∀ b ∈ pieces.erase a, ∀ point, holds a point → ¬ holds b point := by
  have moved : Apart holds (a :: pieces.erase a) :=
    (List.perm_cons_erase member).pairwise apart
      (fun disjoint point second first => disjoint point first second)
  obtain ⟨others, rest⟩ := List.pairwise_cons.mp moved
  exact ⟨rest, others⟩

end Pieces

section Tilings

variable {α : Type u} {β : Type v} {lo hi : α → β} {a b : β} {xs ys : List α}

/-- The pieces lie end to end from `a` to `b`. -/
def Tiles (lo hi : α → β) : β → List α → β → Prop
  | a, [], b => a = b
  | a, x :: xs, b => lo x = a ∧ Tiles lo hi (hi x) xs b

theorem tiles_append :
    Tiles lo hi a (xs ++ ys) b ↔ ∃ middle, Tiles lo hi a xs middle ∧ Tiles lo hi middle ys b := by
  induction xs generalizing a with
  | nil => simp [Tiles]
  | cons x xs ih => simp only [List.cons_append, Tiles, ih, and_assoc, exists_and_left]

theorem tiles_singleton {x : α} : Tiles lo hi a [x] b ↔ lo x = a ∧ hi x = b := Iff.rfl

theorem Tiles.end_unique {c : β} (tiles : Tiles lo hi a xs b) (again : Tiles lo hi a xs c) :
    b = c := by
  induction xs generalizing a with
  | nil => exact tiles.symm.trans again
  | cons x xs ih => exact ih tiles.2 again.2

theorem Tiles.start_unique {c d : β} (tiles : Tiles lo hi a xs b) (again : Tiles lo hi c xs d)
    (nonempty : xs ≠ []) : a = c := by
  cases xs with
  | nil => contradiction
  | cons x xs => exact tiles.1.symm.trans again.1

theorem Tiles.start_eq {c : β} (tiles : Tiles lo hi a xs c) (again : Tiles lo hi b xs c) :
    a = b := by
  cases xs with
  | nil => exact Eq.trans tiles again.symm
  | cons x xs => exact tiles.1.symm.trans again.1

/-- A run of pieces may be exchanged for pieces that lie between the same ends. -/
theorem Tiles.replace {front old new back : List α} {c d : β}
    (tiles : Tiles lo hi a (front ++ (old ++ back)) b) (nonempty : old ≠ [])
    (before : Tiles lo hi c old d) (after : Tiles lo hi c new d) :
    Tiles lo hi a (front ++ (new ++ back)) b := by
  obtain ⟨first, head, tail⟩ := tiles_append.mp tiles
  obtain ⟨second, middle, rest⟩ := tiles_append.mp tail
  have start := middle.start_unique before nonempty
  subst start
  have stop := middle.end_unique before
  subst stop
  exact tiles_append.mpr ⟨first, head, tiles_append.mpr ⟨second, after, rest⟩⟩

section Intervals

variable {γ : Type v} [LinearOrder γ] {low high : α → γ} {c d point : γ}

/-- The half-open interval of a piece. -/
def Between (low high : α → γ) (x : α) (point : γ) : Prop := low x ≤ point ∧ point < high x

theorem Tiles.le (tiles : Tiles low high c xs d) (ordered : ∀ x ∈ xs, low x ≤ high x) : c ≤ d := by
  induction xs generalizing c with
  | nil => exact le_of_eq tiles
  | cons x xs ih =>
      have rest := ih tiles.2 (fun y member => ordered y (List.mem_cons_of_mem _ member))
      exact tiles.1 ▸ le_trans (ordered x (by simp)) rest

theorem Tiles.covered_iff (tiles : Tiles low high c xs d) (ordered : ∀ x ∈ xs, low x ≤ high x) :
    Covered (Between low high) xs point ↔ c ≤ point ∧ point < d := by
  induction xs generalizing c with
  | nil =>
      have same : c = d := tiles
      subst same
      simp
  | cons x xs ih =>
      have orderedRest := fun y member => ordered y (List.mem_cons_of_mem _ member)
      have first : low x = c := tiles.1
      have here := ordered x (by simp)
      have rest := tiles.2.le orderedRest
      rw [covered_cons, ih tiles.2 orderedRest, Between, first]
      constructor
      · rintro (⟨lower, upper⟩ | ⟨lower, upper⟩)
        · exact ⟨lower, lt_of_lt_of_le upper rest⟩
        · exact ⟨le_trans (first ▸ here) lower, upper⟩
      · rintro ⟨lower, upper⟩
        cases lt_or_ge point (high x) with
        | inl inside => exact .inl ⟨lower, inside⟩
        | inr beyond => exact .inr ⟨beyond, upper⟩

theorem Tiles.apart (tiles : Tiles low high c xs d) (ordered : ∀ x ∈ xs, low x ≤ high x) :
    Apart (Between low high) xs := by
  induction xs generalizing c with
  | nil => exact List.Pairwise.nil
  | cons x xs ih =>
      have orderedRest := fun y member => ordered y (List.mem_cons_of_mem _ member)
      refine List.pairwise_cons.mpr ⟨?_, ih tiles.2 orderedRest⟩
      intro y member point first second
      have behind := (tiles.2.covered_iff orderedRest).mp ⟨y, member, second⟩
      exact absurd first.2 (not_lt_of_ge behind.1)

end Intervals

/-- Neighbours that could be joined: both free, and the second begins where the
first ends. -/
def Joinable (lo hi : α → β) (free : α → Prop) (first second : α) : Prop :=
  free first ∧ free second ∧ hi first = lo second

/-- No two neighbours of the list could be joined. -/
def Coalesced (lo hi : α → β) (free : α → Prop) (pieces : List α) : Prop :=
  pieces.IsChain fun first second => ¬ Joinable lo hi free first second

theorem coalesced_split {free : α → Prop} {x : α} :
    Coalesced lo hi free (xs ++ x :: ys) ↔
      Coalesced lo hi free (xs ++ [x]) ∧ Coalesced lo hi free (x :: ys) :=
  List.isChain_split

/-- The last piece may be exchanged for one that begins where it does. -/
theorem Coalesced.swap_last {free : α → Prop} {x y : α} (coalesced : Coalesced lo hi free (xs ++ [x]))
    (start : lo y = lo x) (weaker : free y → free x) : Coalesced lo hi free (xs ++ [y]) := by
  obtain ⟨front, _, between⟩ := List.isChain_append.mp coalesced
  refine List.isChain_append.mpr ⟨front, List.isChain_singleton y, ?_⟩
  intro z last w first joinable
  cases first
  exact between z last x rfl ⟨joinable.1, weaker joinable.2.1, joinable.2.2.trans start⟩

/-- The first piece may be exchanged for one that ends where it does. -/
theorem Coalesced.swap_head {free : α → Prop} {x y : α} (coalesced : Coalesced lo hi free (x :: ys))
    (stop : hi y = hi x) (weaker : free y → free x) : Coalesced lo hi free (y :: ys) := by
  obtain ⟨between, back⟩ := List.isChain_cons.mp coalesced
  refine List.isChain_cons.mpr ⟨?_, back⟩
  intro z first joinable
  exact between z first ⟨weaker joinable.1, joinable.2.1, stop.symm.trans joinable.2.2⟩

/-- The second list is the first with every free piece cut into pieces of ours;
pieces that are not free are not ours, and stay. -/
inductive Subdivides (lo hi : α → β) (free ours : α → Prop) : List α → List α → Prop where
  | nil : Subdivides lo hi free ours [] []
  | keep {x : α} {whole parts : List α} (taken : ¬ free x) (foreign : ¬ ours x)
      (rest : Subdivides lo hi free ours whole parts) :
      Subdivides lo hi free ours (x :: whole) (x :: parts)
  | divide {x : α} {group whole parts : List α} (isFree : free x) (nonempty : group ≠ [])
      (tiles : Tiles lo hi (lo x) group (hi x)) (own : ∀ y ∈ group, ours y)
      (rest : Subdivides lo hi free ours whole parts) :
      Subdivides lo hi free ours (x :: whole) (group ++ parts)

namespace Subdivides

variable {free ours : α → Prop} {whole parts wholeBack partsBack : List α}

theorem append (front : Subdivides lo hi free ours whole parts)
    (back : Subdivides lo hi free ours wholeBack partsBack) :
    Subdivides lo hi free ours (whole ++ wholeBack) (parts ++ partsBack) := by
  induction front with
  | nil => exact back
  | keep taken foreign rest ih => exact .keep taken foreign ih
  | divide isFree nonempty tiles own rest ih =>
      rw [List.append_assoc]
      exact .divide isFree nonempty tiles own ih

theorem congr {other : α → Prop} (subdivides : Subdivides lo hi free ours whole parts)
    (same : ∀ x ∈ parts, ours x ↔ other x) : Subdivides lo hi free other whole parts := by
  induction subdivides with
  | nil => exact .nil
  | keep taken foreign rest ih =>
      refine .keep taken (fun claimed => foreign ((same _ (by simp)).mpr claimed)) ?_
      exact ih (fun x member => same x (List.mem_cons_of_mem _ member))
  | divide isFree nonempty tiles own rest ih =>
      refine .divide isFree nonempty tiles ?_ ?_
      · intro y member
        exact (same y (List.mem_append_left _ member)).mp (own y member)
      · exact ih (fun x member => same x (List.mem_append_right _ member))

theorem refl (free_ours : ∀ x ∈ whole, free x ↔ ours x) :
    Subdivides lo hi free ours whole whole := by
  induction whole with
  | nil => exact .nil
  | cons x whole ih =>
      have rest := ih (fun y member => free_ours y (List.mem_cons_of_mem _ member))
      by_cases isFree : free x
      · have own : ∀ y ∈ [x], ours y := by
          intro y member
          rw [List.mem_singleton.mp member]
          exact (free_ours x (by simp)).mp isFree
        exact .divide isFree (List.cons_ne_nil x []) (tiles_singleton.mpr ⟨rfl, rfl⟩) own rest
      · exact .keep isFree (fun claimed => isFree ((free_ours x (by simp)).mpr claimed)) rest

/-- The group that one of our pieces belongs to. -/
theorem locate {x : α} {front back : List α}
    (subdivides : Subdivides lo hi free ours whole (front ++ x :: back)) (own : ours x) :
    ∃ wholeFront piece wholeBack partsFront groupFront groupBack partsBack,
      whole = wholeFront ++ piece :: wholeBack ∧ free piece ∧
      front = partsFront ++ groupFront ∧ back = groupBack ++ partsBack ∧
      Tiles lo hi (lo piece) (groupFront ++ x :: groupBack) (hi piece) ∧
      (∀ y ∈ groupFront ++ x :: groupBack, ours y) ∧
      Subdivides lo hi free ours wholeFront partsFront ∧
      Subdivides lo hi free ours wholeBack partsBack := by
  generalize split : front ++ x :: back = parts at subdivides
  induction subdivides generalizing front with
  | nil => simp at split
  | @keep kept whole parts taken foreign rest ih =>
      cases front with
      | nil =>
          obtain ⟨rfl, rfl⟩ := List.cons.inj split
          exact absurd own foreign
      | cons first front =>
          obtain ⟨rfl, tail⟩ := List.cons.inj split
          obtain ⟨wholeFront, piece, wholeBack, partsFront, groupFront, groupBack, partsBack, rfl,
            isFree, rfl, rfl, tiles, all, before, behind⟩ := ih tail
          exact ⟨first :: wholeFront, piece, wholeBack, first :: partsFront, groupFront, groupBack,
            partsBack, rfl, isFree, rfl, rfl, tiles, all, .keep taken foreign before, behind⟩
  | @divide piece group whole parts isFree nonempty tiles all rest ih =>
      obtain ⟨more, inFront, inBack⟩ | ⟨more, inFront, inBack⟩ := List.append_eq_append_iff.mp split
      · -- `x` begins inside the group or right behind it.
        cases more with
        | nil =>
            obtain ⟨wholeFront, other, wholeBack, partsFront, groupFront, groupBack, partsBack, rfl,
              otherFree, none, rfl, otherTiles, otherAll, before, behind⟩ :=
              @ih [] (by simpa using inBack)
            obtain ⟨rfl, rfl⟩ := List.append_eq_nil_iff.mp none.symm
            exact ⟨piece :: wholeFront, other, wholeBack, group, [], groupBack, partsBack, rfl,
              otherFree, by simpa using inFront.symm, rfl, otherTiles, otherAll,
              by simpa using Subdivides.divide isFree nonempty tiles all before, behind⟩
        | cons first more =>
            obtain ⟨rfl, rfl⟩ := List.cons.inj inBack
            subst inFront
            exact ⟨[], piece, whole, [], front, more, parts, rfl, isFree, rfl, rfl, tiles, all,
              .nil, rest⟩
      · obtain ⟨wholeFront, other, wholeBack, partsFront, groupFront, groupBack, partsBack, rfl,
          otherFree, rfl, rfl, otherTiles, otherAll, before, behind⟩ := ih inBack.symm
        subst inFront
        exact ⟨piece :: wholeFront, other, wholeBack, group ++ partsFront, groupFront, groupBack,
          partsBack, rfl, otherFree, by simp, rfl, otherTiles, otherAll,
          .divide isFree nonempty tiles all before, behind⟩

/-- Once every piece of ours is free again, a coalesced list has no cuts left. -/
theorem eq_of_coalesced (subdivides : Subdivides lo hi free ours whole parts)
    (allFree : ∀ x ∈ parts, ours x → free x) (coalesced : Coalesced lo hi free parts)
    (determined : ∀ x y, free x → free y → lo x = lo y → hi x = hi y → x = y) : parts = whole := by
  induction subdivides with
  | nil => rfl
  | @keep x whole parts taken foreign rest ih =>
      rw [ih (fun y member => allFree y (List.mem_cons_of_mem _ member)) coalesced.tail]
  | @divide x group whole parts isFree nonempty tiles own rest ih =>
      have restEq := ih (fun y member => allFree y (List.mem_append_right _ member))
        coalesced.right_of_append
      cases group with
      | nil => contradiction
      | cons first group =>
          cases group with
          | nil =>
              have same := determined first x (allFree first (by simp) (own first (by simp))) isFree
                tiles.1 tiles.2
              rw [same, restEq]
              rfl
          | cons second group =>
              have joinable : Joinable lo hi free first second :=
                ⟨allFree first (by simp) (own first (by simp)),
                  allFree second (by simp) (own second (by simp)), tiles.2.1.symm⟩
              have apart := coalesced
              simp only [Coalesced, List.cons_append, List.isChain_cons_cons] at apart
              exact absurd joinable apart.1

/-- A group is never empty, so nothing is cut into nothing. -/
theorem whole_nil (subdivides : Subdivides lo hi free ours whole []) : whole = [] := by
  generalize none : ([] : List α) = parts at subdivides
  cases subdivides with
  | nil => rfl
  | keep => contradiction
  | divide isFree nonempty => exact absurd (List.append_eq_nil_iff.mp none.symm).1 nonempty

/-- The last piece, if it is ours, ends where a free piece of the whole ends. -/
theorem last_piece {x : α} (subdivides : Subdivides lo hi free ours whole (parts ++ [x]))
    (own : ours x) : ∃ front piece, whole = front ++ [piece] ∧ free piece ∧ hi piece = hi x := by
  obtain ⟨wholeFront, piece, wholeBack, partsFront, groupFront, groupBack, partsBack, rfl, isFree,
    rfl, none, tiles, _, _, behind⟩ := subdivides.locate own
  obtain ⟨rfl, rfl⟩ := List.append_eq_nil_iff.mp none.symm
  cases behind.whole_nil
  obtain ⟨middle, _, _, stop⟩ := tiles_append.mp tiles
  exact ⟨wholeFront, piece, rfl, isFree, stop.symm⟩

/-- The first piece, if it is ours, begins where a free piece of the whole begins. -/
theorem first_piece {x : α} (subdivides : Subdivides lo hi free ours whole (x :: parts))
    (own : ours x) : ∃ piece back, whole = piece :: back ∧ free piece ∧ lo piece = lo x := by
  obtain ⟨wholeFront, piece, wholeBack, partsFront, groupFront, groupBack, partsBack, rfl, isFree,
    none, rfl, tiles, _, before, _⟩ := @locate _ _ _ _ _ _ _ x [] parts subdivides own
  obtain ⟨rfl, rfl⟩ := List.append_eq_nil_iff.mp none.symm
  cases before.whole_nil
  exact ⟨piece, wholeBack, rfl, isFree, tiles.1.symm⟩

variable {rest left right behind new : List α} {x piece : α}

/-- Free pieces in front of a group that touch it would make the whole joinable. -/
theorem front_in_group {group : List α} (before : Subdivides lo hi free ours whole parts)
    (coalesced : Coalesced lo hi free (whole ++ [piece])) (isFree : free piece)
    (groupTiles : Tiles lo hi (lo piece) group b) (leftTiles : Tiles lo hi a left b)
    (neighbours : ∀ y ∈ left, ours y) (front : rest ++ left = parts ++ group) :
    ∃ more, group = more ++ left ∧ rest = parts ++ more := by
  obtain ⟨more, rfl, rfl⟩ | ⟨more, rfl, rfl⟩ := List.append_eq_append_iff.mp front
  · cases more using List.reverseRecOn with
    | nil => exact ⟨[], by simp, by simp⟩
    | append_singleton more last =>
        rw [← List.append_assoc] at before
        obtain ⟨front, touching, rfl, touchingFree, stop⟩ :=
          before.last_piece (neighbours last (by simp))
        obtain ⟨middle, runTiles, rest⟩ := tiles_append.mp leftTiles
        obtain ⟨_, _, _, meets⟩ := tiles_append.mp runTiles
        have start := rest.start_eq groupTiles
        have joinable : Joinable lo hi free touching piece :=
          ⟨touchingFree, isFree, stop.trans (meets.trans start)⟩
        rw [List.append_assoc, List.singleton_append] at coalesced
        exact absurd joinable (List.isChain_append_cons_cons.mp coalesced).2.1
  · exact ⟨more, rfl, rfl⟩

theorem back_in_group {group : List α} (after : Subdivides lo hi free ours whole parts)
    (coalesced : Coalesced lo hi free (piece :: whole)) (isFree : free piece)
    (groupTiles : Tiles lo hi a group (hi piece)) (rightTiles : Tiles lo hi a right b)
    (neighbours : ∀ y ∈ right, ours y) (back : right ++ behind = group ++ parts) :
    ∃ more, group = right ++ more ∧ behind = more ++ parts := by
  obtain ⟨more, rfl, rfl⟩ | ⟨more, rfl, rfl⟩ := List.append_eq_append_iff.mp back
  · exact ⟨more, rfl, rfl⟩
  · cases more with
    | nil => exact ⟨[], by simp, by simp⟩
    | cons first more =>
        rw [List.cons_append] at after
        obtain ⟨touching, back, rfl, touchingFree, start⟩ :=
          after.first_piece (neighbours first (by simp))
        obtain ⟨middle, rest, meets, _⟩ := tiles_append.mp rightTiles
        have stop := groupTiles.end_unique rest
        have joinable : Joinable lo hi free piece touching :=
          ⟨isFree, touchingFree, stop.trans (meets.symm.trans start.symm)⟩
        exact absurd joinable (List.isChain_cons_cons.mp coalesced).1

/-- One of ours, with the free pieces it touches, may be exchanged for other pieces
of ours between the same ends: a coalesced whole has no free piece that touches
another, so all of them are in one group. -/
theorem exchange {other : α → Prop} (subdivides : Subdivides lo hi free ours whole
      (rest ++ (left ++ x :: right) ++ behind)) (own : ours x)
    (neighbours : ∀ y ∈ left ++ right, ours y) (tiles : Tiles lo hi a (left ++ x :: right) b)
    (coalesced : Coalesced lo hi free whole) (newTiles : Tiles lo hi a new b) (nonempty : new ≠ [])
    (newOurs : ∀ y ∈ new, other y) (same : ∀ y ∈ rest ++ behind, ours y ↔ other y) :
    Subdivides lo hi free other whole (rest ++ new ++ behind) := by
  have split : rest ++ (left ++ x :: right) ++ behind = (rest ++ left) ++ x :: (right ++ behind) := by
    simp
  rw [split] at subdivides
  obtain ⟨wholeFront, piece, wholeBack, partsFront, groupFront, groupBack, partsBack, rfl, isFree,
    front, back, group, all, before, after⟩ := subdivides.locate own
  obtain ⟨middle, leftTiles, xStart, rightTiles⟩ := tiles_append.mp tiles
  obtain ⟨first, frontTiles, xLow, backTiles⟩ := tiles_append.mp group
  obtain ⟨frontCoalesced, backCoalesced⟩ := coalesced_split.mp coalesced
  rw [← xStart] at leftTiles
  rw [← xLow] at frontTiles
  obtain ⟨groupFront, rfl, rfl⟩ := before.front_in_group frontCoalesced isFree frontTiles leftTiles
    (fun y member => neighbours y (by simp [member])) front
  obtain ⟨groupBack, rfl, rfl⟩ := after.back_in_group backCoalesced isFree backTiles rightTiles
    (fun y member => neighbours y (by simp [member])) back
  have exchanged : Tiles lo hi (lo piece) (groupFront ++ (new ++ groupBack)) (hi piece) :=
    Tiles.replace (by simpa using group) (by simp) tiles newTiles
  have groupOurs : ∀ y ∈ groupFront ++ (new ++ groupBack), other y := by
    intro y member
    simp only [List.mem_append] at member
    obtain inFront | inNew | inBack := member
    · exact (same y (by simp [inFront])).mp (all y (by simp [inFront]))
    · exact newOurs y inNew
    · exact (same y (by simp [inBack])).mp (all y (by simp [inBack]))
  have frontParts := before.congr (fun y member => same y (by simp [member]))
  have backParts := after.congr (fun y member => same y (by simp [member]))
  have joined := frontParts.append (.divide isFree (by simp [nonempty]) exchanged groupOurs backParts)
  simpa using joined

end Subdivides

end Tilings

end WindOs.Data
