import WindOs.Mm.DeleteMm
import WindOs.Mm.ForkIsolation

namespace WindOs.Mm

open Data

/-! # The walk over the pages of a VMA

`copy_mm` and `delete_mm` go through a VMA with a 32-bit cursor: by a page where the
directory has a table, and by the pages of a whole table where it has none.  The second
step is not rounded to the beginning of a table.
-/

namespace Paging

variable {has : Nat → Bool} {start stop la i : Nat}

/-- Where the cursor goes from `la`; `has` says which entries of the directory are present. -/
def stride (has : Nat → Bool) (la : Nat) : Nat :=
  if has (la / 2 ^ 22) then nextPage la else nextTable la

/-- The range meets no present entry. -/
def Bare (has : Nat → Bool) (start stop : Nat) : Prop :=
  ∀ i, start / 2 ^ 22 ≤ i → 2 ^ 22 * i < stop → ¬ has i

/-- The cursor cannot step over the end of the address space. -/
def SafeEnd (has : Nat → Bool) (stop : Nat) : Prop :=
  stop ≤ 0xFFC00000 ∨ has 1023 ∧ stop ≤ 0xFFFFF000

/-- When the walk ends and misses no page that has a table. -/
def Walkable (has : Nat → Bool) (start stop : Nat) : Prop :=
  (start % 2 ^ 22 = 0 ∨ has (start / 2 ^ 22) ∨ Bare has start stop) ∧
    (SafeEnd has stop ∨
      Bare has start stop ∧ start < 0xFFC00000 ∧ stop ≤ 0xFFC00000 + start % 2 ^ 22)

theorem stride_has (present : has (la / 2 ^ 22)) (below : la < 0xFFFFF000) :
    stride has la = la + pageSize := by
  rw [stride, if_pos present, nextPage]
  simp only [pageSize]
  omega

theorem stride_bare (absent : ¬ has (la / 2 ^ 22)) (below : la < 0xFFC00000) :
    stride has la = la + 2 ^ 22 := by
  rw [stride, if_neg absent, nextTable]
  simp only [pageSize]
  omega

theorem stride_aligned (aligned : la % pageSize = 0) :
    stride has la % pageSize = 0 ∧ stride has la < 2 ^ 32 := by
  simp only [pageSize] at aligned ⊢
  rw [stride]
  split
  · simp only [nextPage, pageSize]
    omega
  · simp only [nextTable, pageSize]
    omega

theorem SafeEnd.page_below (safe : SafeEnd has stop) (more : la < stop) : la < 0xFFFFF000 := by
  rcases safe with low | ⟨-, high⟩ <;> omega

theorem SafeEnd.table_below (safe : SafeEnd has stop) (more : la < stop)
    (absent : ¬ has (la / 2 ^ 22)) : la < 0xFFC00000 := by
  rcases safe with low | ⟨last, high⟩
  · omega
  · by_contra above
    have index : la / 2 ^ 22 = 1023 := by omega
    exact absent (index ▸ last)

theorem SafeEnd.grows (safe : SafeEnd has stop) (more : la < stop) : la < stride has la := by
  by_cases present : has (la / 2 ^ 22)
  · rw [stride_has present (safe.page_below more)]
    simp only [pageSize]
    omega
  · rw [stride_bare present (safe.table_below more present)]
    omega

/-- From here the cursor comes round for ever. -/
def Doomed (has : Nat → Bool) (stop la : Nat) : Prop :=
  la % pageSize = 0 ∧ la < 2 ^ 32 ∧ (0xFFFFF000 < stop ∨
    ¬ has 1023 ∧ 0xFFC00000 < stop ∧ la < stop ∧
      (la % 2 ^ 22 + 0xFFC00000 < stop ∨ ∃ i, la / 2 ^ 22 ≤ i ∧ i < 1023 ∧ has i))

theorem Doomed.more (doomed : Doomed has stop la) : la < stop := by
  obtain ⟨aligned, small, past | ⟨-, -, more, -⟩⟩ := doomed
  · simp only [pageSize] at aligned
    omega
  · exact more

theorem Doomed.stride (doomed : Doomed has stop la) : Doomed has stop (stride has la) := by
  obtain ⟨aligned, small, reason⟩ := doomed
  have kept := @stride_aligned has la aligned
  refine ⟨kept.1, kept.2, ?_⟩
  rcases reason with past | ⟨last, high, more, further⟩
  · exact .inl past
  · refine .inr ⟨last, high, ?_⟩
    simp only [pageSize] at aligned
    by_cases present : has (la / 2 ^ 22)
    · -- a present entry is not the last, so the next page is below the last table or its first
      have index : la / 2 ^ 22 < 1023 := by
        by_contra above
        have same : la / 2 ^ 22 = 1023 := by omega
        exact last (same ▸ present)
      rw [stride_has present (by omega)]
      simp only [pageSize]
      refine ⟨by omega, ?_⟩
      by_cases inside : (la + 4096) / 2 ^ 22 = la / 2 ^ 22
      · exact .inr ⟨la / 2 ^ 22, by omega, index, present⟩
      · exact .inl (by omega)
    · by_cases below : la < 0xFFC00000
      · rw [stride_bare present below]
        rcases further with low | ⟨i, above, notLast, there⟩
        · exact ⟨by omega, .inl (by omega)⟩
        · have different : i ≠ la / 2 ^ 22 := by
            rintro rfl
            exact present there
          exact ⟨by omega, .inr ⟨i, by omega, notLast, there⟩⟩
      · -- in the last table the cursor goes back to the first, at the same offset
        have again : Paging.stride has la = la % 2 ^ 22 := by
          rw [Paging.stride, if_neg present, nextTable]
          simp only [pageSize]
          omega
        rw [again]
        exact ⟨by omega, .inl (by omega)⟩

theorem doomed_of_end (aligned : start % pageSize = 0) (range : start < stop) (small : stop < 2 ^ 32)
    (loose : ¬ SafeEnd has stop)
    (met : ¬ (Bare has start stop ∧ start < 0xFFC00000 ∧ stop ≤ 0xFFC00000 + start % 2 ^ 22)) :
    Doomed has stop start := by
  refine ⟨aligned, by omega, ?_⟩
  by_cases past : 0xFFFFF000 < stop
  · exact .inl past
  · have high : 0xFFC00000 < stop := by
      by_contra low
      exact loose (.inl (by omega))
    have last : ¬ has 1023 := fun present => loose (.inr ⟨present, by omega⟩)
    refine .inr ⟨last, high, range, ?_⟩
    by_cases bare : Bare has start stop
    · left
      by_contra far
      apply met
      exact ⟨bare, by omega, by omega⟩
    · simp only [Bare, not_forall, not_not] at bare
      obtain ⟨i, above, inside, present⟩ := bare
      have different : i ≠ 1023 := by
        rintro rfl
        exact last present
      exact .inr ⟨i, above, by omega, present⟩

/-- The cursor is where no page with a table was stepped over, and none will be. -/
def Marching (has : Nat → Bool) (start stop la : Nat) : Prop :=
  start ≤ la ∧ la % pageSize = 0 ∧ la < 2 ^ 32 ∧
    (SafeEnd has stop ∧ (la % 2 ^ 22 = 0 ∨ has (la / 2 ^ 22)) ∨
      Bare has start stop ∧ stop ≤ 0xFFC00000 + la % 2 ^ 22)

theorem Walkable.marching (walkable : Walkable has start stop) (aligned : start % pageSize = 0)
    (range : start < stop) (small : stop < 2 ^ 32) : Marching has start stop start := by
  obtain ⟨first, safe | ⟨bare, -, far⟩⟩ := walkable
  · refine ⟨Nat.le_refl _, aligned, by omega, ?_⟩
    rcases first with border | present | bare
    · exact .inl ⟨safe, .inl border⟩
    · exact .inl ⟨safe, .inr present⟩
    · right
      refine ⟨bare, ?_⟩
      rcases safe with low | ⟨last, -⟩
      · omega
      · by_contra above
        exact bare 1023 (by omega) (by omega) last
  · exact ⟨Nat.le_refl _, aligned, by omega, .inr ⟨bare, far⟩⟩

/-- A step goes up, to a place of the same kind, and over no page that has a table. -/
theorem Marching.stride (marching : Marching has start stop la) (more : la < stop) :
    la < stride has la ∧ Marching has start stop (stride has la) ∧
      ∀ page, la < page → page < stride has la → page < stop → page % pageSize = 0 →
        ¬ has (page / 2 ^ 22) := by
  obtain ⟨above, aligned, small, mode⟩ := marching
  have kept := @stride_aligned has la aligned
  simp only [pageSize] at aligned
  rcases mode with ⟨safe, place⟩ | ⟨bare, far⟩
  · have grows := safe.grows more
    refine ⟨grows, ⟨by omega, kept.1, kept.2, .inl ⟨safe, ?_⟩⟩, ?_⟩
    · by_cases present : has (la / 2 ^ 22)
      · rw [stride_has present (safe.page_below more)]
        simp only [pageSize]
        by_cases inside : (la + 4096) / 2 ^ 22 = la / 2 ^ 22
        · exact .inr (inside ▸ present)
        · exact .inl (by omega)
      · rw [stride_bare present (safe.table_below more present)]
        exact .inl (by have border := place.resolve_right present; omega)
    · intro page after before _ whole
      simp only [pageSize] at whole
      by_cases present : has (la / 2 ^ 22)
      · rw [stride_has present (safe.page_below more)] at before
        simp only [pageSize] at before
        omega
      · rw [stride_bare present (safe.table_below more present)] at before
        have border := place.resolve_right present
        have same : page / 2 ^ 22 = la / 2 ^ 22 := by omega
        rwa [same]
  · have absent : ¬ has (la / 2 ^ 22) := bare _ (by omega) (by omega)
    rw [stride_bare absent (by omega)] at kept ⊢
    refine ⟨by omega, ⟨by omega, kept.1, kept.2, .inr ⟨bare, by omega⟩⟩, ?_⟩
    intro page after _ inside _
    exact bare _ (by omega) (by omega)

section Loops

variable {σ β : Type} {body : Nat × σ → (Nat × σ) ⊕ Except Halt β} {state : σ} {fuel : Nat}

/-- The rounds of a loop move its cursor over the range, unless they halt. -/
structure Strides (body : Nat × σ → (Nat × σ) ⊕ Except Halt β) (stop : Nat) (has : Nat → Bool)
    (first : Nat × σ) : Prop where
  round : ∀ la state, Reached body first (la, state) → la < stop →
    (∃ after, body (la, state) = .inl (stride has la, after)) ∨
      ∃ halt, body (la, state) = .inr (.error halt)
  ends : ∀ la state, Reached body first (la, state) → ¬ la < stop →
    ∃ result, body (la, state) = .inr (.ok result)

/-- No round halts. -/
def Returns (body : Nat × σ → (Nat × σ) ⊕ Except Halt β) (first : Nat × σ) : Prop :=
  ∀ state, Reached body first state → ∀ halt, body state ≠ .inr (.error halt)

/-- The loop ends and, if no round halts, one begins at each page of the range that has a
table. -/
def Considers (body : Nat × σ → (Nat × σ) ⊕ Except Halt β) (stop : Nat) (has : Nat → Bool)
    (first : Nat × σ) : Prop :=
  ∃ fuel result, loop body fuel first = some result ∧
    ∀ last, result = .ok last →
      ∀ page, page % pageSize = 0 → first.1 ≤ page → page < stop → has (page / 2 ^ 22) →
        page ∈ (trace body fuel first).map Prod.fst

theorem Returns.later {first next : Nat × σ} (returns : Returns body first)
    (again : body first = .inl next) : Returns body next :=
  fun state reached => returns state (.later again reached)

namespace Strides

theorem later {first next : Nat × σ} (strides : Strides body stop has first)
    (again : body first = .inl next) : Strides body stop has next where
  round la state reached := strides.round la state (.later again reached)
  ends la state reached := strides.ends la state (.later again reached)

theorem endless (strides : Strides body stop has (la, state)) (returns : Returns body (la, state))
    (doomed : Doomed has stop la) : loop body fuel (la, state) = none := by
  induction fuel generalizing la state with
  | zero => rfl
  | succ fuel ih =>
      rcases strides.round la state .start doomed.more with ⟨after, again⟩ | ⟨halt, halted⟩
      · rw [loop_next again]
        exact ih (strides.later again) (returns.later again) doomed.stride
      · exact absurd halted (returns _ .start halt)

theorem considers (strides : Strides body stop has (la, state))
    (marching : Marching has start stop la) : Considers body stop has (la, state) := by
  induction left : stop - la using Nat.strongRecOn generalizing la state with
  | ind left ih =>
      by_cases more : la < stop
      · rcases strides.round la state .start more with ⟨after, again⟩ | ⟨halt, halted⟩
        · obtain ⟨grows, next, passed⟩ := marching.stride more
          obtain ⟨fuel, result, ended, visited⟩ :=
            ih (stop - stride has la) (by omega) (strides.later again) next rfl
          refine ⟨fuel + 1, result, (loop_next again).trans ended, ?_⟩
          intro last returned page aligned above below present
          rw [trace_next again, List.map_cons, List.mem_cons]
          by_cases here : page = la
          · exact .inl here
          · right
            by_cases before : page < stride has la
            · have after : la < page := Nat.lt_of_le_of_ne above (Ne.symm here)
              exact absurd present (passed page after before below aligned)
            · exact visited last returned page aligned (Nat.le_of_not_lt before) below present
        · exact ⟨1, _, loop_exit halted, fun _ returned => nomatch returned⟩
      · obtain ⟨result, ended⟩ := strides.ends la state .start more
        refine ⟨1, _, loop_exit ended, ?_⟩
        intro _ _ page _ above below
        omega

/-- A walk that begins inside a table that is not there never comes to the beginning of
the next one that is. -/
theorem misses (strides : Strides body stop has (start, state)) (safe : SafeEnd has stop)
    (inside : start % 2 ^ 22 ≠ 0) (absent : ¬ has (start / 2 ^ 22)) (met : ¬ Bare has start stop) :
    ∃ page, page % pageSize = 0 ∧ start ≤ page ∧ page < stop ∧ has (page / 2 ^ 22) ∧
      page ∉ (trace body fuel (start, state)).map Prod.fst := by
  have there : ∃ i, start / 2 ^ 22 ≤ i ∧ 2 ^ 22 * i < stop ∧ has i := by
    simpa only [Bare, not_forall, not_not, exists_prop] using met
  obtain ⟨above, below, present⟩ := Nat.find_spec there
  have least := fun j => @Nat.find_min _ _ there j
  generalize Nat.find there = i at above below present least
  have different : i ≠ start / 2 ^ 22 := by
    rintro rfl
    exact absent present
  refine ⟨2 ^ 22 * i, by simp only [pageSize]; omega, by omega, below, ?_, ?_⟩
  · rwa [Nat.mul_div_cancel_left _ (by decide)]
  · intro reached
    obtain ⟨⟨la, last⟩, member, same⟩ := List.mem_map.mp reached
    -- the cursor keeps its offset up to that table, and is beyond its beginning afterwards
    have kept := @trace_invariant _ _ body (start, state) fuel
      (fun state' => Reached body (start, state) state' ∧
        (state'.1 % 2 ^ 22 = start % 2 ^ 22 ∧ start ≤ state'.1 ∧ state'.1 / 2 ^ 22 < i ∨
          2 ^ 22 * i < state'.1)) ?_ ⟨.start, .inl ⟨rfl, Nat.le_refl _, by omega⟩⟩ _ member
    · change la = 2 ^ 22 * i at same
      obtain ⟨-, before | beyond⟩ := kept
      · have lower : la / 2 ^ 22 < i := before.2.2
        omega
      · have higher : 2 ^ 22 * i < la := beyond
        omega
    · rintro ⟨la, middle⟩ next ⟨reached, place⟩ again
      refine ⟨.round reached again, ?_⟩
      by_cases more : la < stop
      · rcases strides.round la middle reached more with ⟨after, round⟩ | ⟨halt, halted⟩
        · rw [round] at again
          cases again
          rcases place with ⟨offset, since, low⟩ | beyond
          · have bare : ¬ has (la / 2 ^ 22) := by
              intro here
              exact least (la / 2 ^ 22) low ⟨by omega, by omega, here⟩
            simp only at offset since low ⊢
            rw [stride_bare bare (safe.table_below more bare)]
            omega
          · exact .inr (Nat.lt_trans beyond (safe.grows more))
        · rw [halted] at again
          cases again
      · obtain ⟨result, ended⟩ := strides.ends la middle reached more
        rw [ended] at again
        cases again

/-- Only a range of this kind is walked over to its end. -/
theorem walkable (strides : Strides body stop has (start, state))
    (returns : Returns body (start, state)) (aligned : start % pageSize = 0) (range : start < stop)
    (small : stop < 2 ^ 32) (considers : Considers body stop has (start, state)) :
    Walkable has start stop := by
  obtain ⟨fuel, result, ended, visited⟩ := considers
  have finite : SafeEnd has stop ∨
      Bare has start stop ∧ start < 0xFFC00000 ∧ stop ≤ 0xFFC00000 + start % 2 ^ 22 := by
    by_contra endless
    rw [not_or] at endless
    rw [strides.endless returns (doomed_of_end aligned range small endless.1 endless.2)] at ended
    cases ended
  refine ⟨?_, finite⟩
  by_contra misses
  rw [not_or, not_or] at misses
  obtain ⟨inside, absent, met⟩ := misses
  have safe := finite.resolve_right (fun bare => met bare.1)
  obtain ⟨page, whole, above, below, present, missed⟩ :=
    @Strides.misses _ _ _ _ _ _ _ fuel strides safe inside absent met
  cases result with
  | error halt =>
      obtain ⟨last, reached, halted⟩ := loop_reached ended
      exact returns last reached halt halted
  | ok last => exact missed (visited last rfl page whole above below present)

end Strides

end Loops

/-- The directory has a table at this entry. -/
def presentIn (pg : Paging) (pde i : Nat) : Bool := decide (Entry.Present (pg.entry pde i))

variable {pg after : Paging} {pde dir : Nat} {calls : List Nat}

/-- The copy of pages leaves the parent's directory with the tables that it had. -/
def KeepsDirectory (pg : Paging) (pde dir start stop : Nat) : Prop :=
  ∀ state, Reached (copyPageRound pde dir stop) (start, pg) state →
    ∀ i < 1024, state.2.presentIn dir i = pg.presentIn dir i

/-- In the state in which the loops of `copy_mm` begin nothing is copied into the directory. -/
theorem Begun.keepsDirectory {blocks : List (Nat × Nat)} {free fifo : List Nat}
    (begun : pg.Begun pde dir blocks free fifo) (fits : stop ≤ 0xFFC00000)
    (placed : ∀ la, start ≤ la → la < stop → ∀ frame, pg.translate dir la = some frame →
      pg.Placed free la frame) : pg.KeepsDirectory pde dir start stop := by
  intro state reached i _
  rw [(begun.reached fits placed reached).1]

end Paging

end WindOs.Mm
