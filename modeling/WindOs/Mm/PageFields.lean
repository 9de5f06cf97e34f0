import WindOs.Mm.PageBlocks

namespace WindOs.Mm

open Data

/-! # When the free_pages fields describe the free list

An exact fit sets the size of whatever block comes next to 0, and a freed block is
joined upwards only to a run of a single page.  As long as neither comes up, the
fields are the lengths of the maximal runs.
-/

namespace PageState

variable {count n page : Nat} {state after : PageState} {list listed : List Nat}

/-- The page is on the free list. -/
def Listed (state : PageState) (page : Nat) : Prop :=
  ∃ list : List Nat, state.area.nodes.IsRing .head (list.map .page) ∧ page ∈ list

theorem Sound.listed_iff (sound : Sound count state list) : state.Listed page ↔ page ∈ list := by
  constructor
  · rintro ⟨other, ring, member⟩
    have same := ring.unique sound.ring
    have inside : PageNode.page page ∈ list.map PageNode.page := by
      rw [← same]
      exact List.mem_map_of_mem member
    simpa using inside
  · intro member
    exact ⟨list, sound.ring, member⟩

/-- `alloc_page` does not use up the first run while there are others, and no block is
freed by its raised pointer, or right behind a free run of two pages or more. -/
def KeepsRuns (state : PageState) : PageOp → Prop
  | .alloc n => ∀ page, state.area.nodes.next .head = .page page →
      state.area.freePages page = n → state.area.freePageNum = n
  | .free page _ => page.raised = false ∧
      ∀ q r, q + 1 = page.page → r + 1 = q → ¬ (state.Listed q ∧ state.Listed r)

theorem KeepsRuns.physical {op : PageOp} (allowed : KeepsRuns state op) : FreesPhysical op := by
  cases op with
  | alloc n => trivial
  | free page n => exact allowed.1

theorem exact_served (exact : Exact state.area.freePages list) (sound : Sound count state list)
    (allowed : KeepsRuns state (.alloc n)) (whole : list = List.range' page n ++ listed)
    (positive : 0 < n) (large : n ≤ state.area.freePages page)
    (sizes : ∀ q tail, listed = q :: tail → after.area.freePages =
      Function.update state.area.freePages q (state.area.freePages page - n)) :
    Exact after.area.freePages listed := by
  cases split : listed with
  | nil => exact ⟨by simp, by simp⟩
  | cons q tail =>
      subst whole
      have sorted := sound.sorted
      have head : state.area.nodes.next .head = .page page := by
        have next := sound.ring.next_head
        rw [← cons_range page positive] at next
        exact next
      have longer : n < state.area.freePages page := by
        by_contra fits
        have used := allowed page head (by omega)
        rw [sound.num, split, List.length_append, List.length_range', List.length_cons] at used
        omega
      -- The rest of the run comes next on the list.
      have next : q = page + n := by
        obtain ⟨-, run, -⟩ := exact.head page (by
            rw [List.mem_append, List.mem_range'_1]
            omega) (by
            rw [← cons_range page positive, List.cons_append] at sorted ⊢
            exact first_begins sorted)
        have inRest := (behind_range sorted positive).mpr ⟨run n longer, Nat.le_refl _⟩
        have above := ((behind_range sorted positive).mp (split ▸ List.mem_cons_self : q ∈ listed)).2
        have restSorted := (List.pairwise_append.mp sorted).2.1
        rw [split] at inRest restSorted
        cases List.mem_cons.mp inRest with
        | inl same => exact same.symm
        | inr later =>
            have less := (List.pairwise_cons.mp restSorted).1 _ later
            omega
      rw [sizes q tail split, ← split, next]
      exact exact.take sorted positive longer

theorem exact_freed {target : Nat} {front back : List Nat}
    (exact : Exact state.area.freePages (front ++ target :: back))
    (sound : Sound count state (front ++ target :: back)) (member : (page, n) ∈ state.blocks)
    (allowed : ∀ q r, q + 1 = page → r + 1 = q → ¬ (state.Listed q ∧ state.Listed r))
    (below : ∀ q ∈ front, q < page)
    (room : page + n ≤ target)
    (sizes : after.area.freePages =
      joinUp (joinDown state.area.freePages page n target) page front.getLast?) :
    Exact after.area.freePages (front ++ (List.range' page n ++ target :: back)) := by
  have positive : 0 < n := sound.nonempty _ member
  obtain ⟨frontSorted, backSorted, -⟩ := List.pairwise_append.mp sound.sorted
  have above : ∀ q ∈ target :: back, target ≤ q := by
    intro q inBack
    cases List.mem_cons.mp inBack with
    | inl same => omega
    | inr later =>
        have less := (List.pairwise_cons.mp backSorted).1 q later
        omega
  have gap : Gap (front ++ target :: back) page n target := by
    refine ⟨by simp, room, ?_⟩
    intro q inside
    cases List.mem_append.mp inside with
    | inl inFront => exact .inl (below q inFront)
    | inr inBack => exact .inr (above q inBack)
  have zero : ∀ q ∈ List.range' (page + 1) (n - 1), state.area.freePages q = 0 := by
    intro q inRun
    rw [List.mem_range'_1] at inRun
    exact sound.interior _ member q ⟨by simp only; omega, by simp only; omega⟩ (by simp only; omega)
  have cut := exact.insert gap positive zero fun q => mem_inserted
  have old : ∀ q ∈ front ++ (List.range' page n ++ target :: back), q < page →
      state.Listed q := by
    intro q inside lower
    rw [sound.listed_iff]
    cases mem_inserted.mp inside with
    | inl inBlock => exact absurd inBlock.1 (by simp only; omega)
    | inr before => exact before
  have sides : ∀ q ∈ front ++ (List.range' page n ++ target :: back), q ∈ front ∨ page ≤ q := by
    intro q inside
    simp only [List.mem_append, List.mem_range'_1] at inside
    rcases inside with inFront | inRun | inBack
    · exact .inl inFront
    · exact .inr inRun.1
    · have side := above q inBack
      exact .inr (by omega)
  rw [sizes]
  apply cut.joinUp
  · exact mem_inserted.mpr (.inl ⟨Nat.le_refl _, Nat.lt_add_of_pos_right positive⟩)
  · intro none q inside
    rw [List.getLast?_eq_none_iff] at none
    cases sides q inside with
    | inl inFront =>
        rw [none] at inFront
        contradiction
    | inr above => exact above
  · intro u last
    have inFront := List.mem_of_getLast? last
    refine ⟨List.mem_append_left _ inFront, below u inFront, ?_⟩
    intro q inside
    cases sides q inside with
    | inl alsoFront =>
        obtain ⟨init, rfl⟩ := List.getLast?_eq_some_iff.mp last
        cases List.mem_append.mp alsoFront with
        | inl inInit =>
            have less := (List.pairwise_append.mp frontSorted).2.2 q inInit u (by simp)
            exact .inl (by omega)
        | inr same => exact .inl (by simp at same; omega)
    | inr above => exact .inr above
  · intro q inside next r before nextBefore
    exact allowed q r next nextBefore ⟨old q inside (by omega), old r before (by omega)⟩

theorem exact_step {op : PageOp} (exact : Exact state.area.freePages list)
    (sound : Sound count state list) (change : Change state list after listed op)
    (allowed : KeepsRuns state op) : Exact after.area.freePages listed := by
  cases change with
  | refused same => exact same ▸ exact
  | served whole _ positive large sizes =>
      exact exact_served exact sound allowed whole positive large sizes
  | lost _ _ => exact ⟨by simp, by simp⟩
  | freed member _ split below room sizes =>
      subst split
      exact exact_freed exact sound member allowed.2 below room sizes

theorem exact_init (nodes : Links PageNode) :
    Exact (FreeArea.pageInit nodes count).freePages (List.range' 0 count) := by
  constructor
  · intro p member alone
    rw [List.mem_range'_1] at member
    have first : p = 0 := by
      by_contra later
      exact alone (p - 1) (by rw [List.mem_range'_1]; omega) (by omega)
    subst first
    have size : (FreeArea.pageInit nodes count).freePages 0 = count := by
      simp [FreeArea.pageInit]
    rw [size]
    refine ⟨by omega, ?_, by simp⟩
    intro i small
    rw [List.mem_range'_1]
    omega
  · intro p _ q _ next
    simp only [FreeArea.pageInit]
    exact Function.update_of_ne (by omega) _ _

theorem exact_of_reachable (reached : (machine count).ReachableWithin KeepsRuns state) :
    ∃ list, Sound count state list ∧ Exact state.area.freePages list := by
  refine @Machine.ReachableWithin.invariant _ _ _ _
    (fun state => ∃ list, Sound count state list ∧ Exact state.area.freePages list) ?_ ?_ _ reached
  · rintro _ ⟨nodes, rfl⟩
    exact ⟨_, Sound.init nodes, exact_init nodes⟩
  · rintro before op after ⟨list, sound, exact⟩ allowed moved
    obtain ⟨listed, kept, change⟩ := sound.step moved
    exact ⟨listed, kept, exact_step exact sound change allowed⟩

/-- The first page of a maximal run of free pages holds the length of the run, every
other free page holds 0, and the fields add up to the number of free pages. -/
theorem fields_describe_runs (reached : (@machine .apart count).ReachableWithin KeepsRuns state) :
    ∃ list : List Nat, state.area.nodes.IsRing .head (list.map .page) ∧
      (∀ p ∈ list, (∀ q ∈ list, q + 1 ≠ p) → 0 < state.area.freePages p ∧
        (∀ i < state.area.freePages p, p + i ∈ list) ∧ p + state.area.freePages p ∉ list) ∧
      (∀ p ∈ list, ∀ q ∈ list, q + 1 = p → state.area.freePages p = 0) ∧
      (list.map state.area.freePages).sum = state.area.freePageNum := by
  obtain ⟨list, sound, exact⟩ :=
    exact_of_reachable (reachable_physical (fun _ _ allowed => allowed.physical) reached).1
  refine ⟨list, sound.ring, exact.head, exact.inner, ?_⟩
  rw [exact.sum sound.headed sound.sorted, sound.num]

/-- A page is freed in front of the run that it was taken from. -/
theorem fields_describe_runs_joined :
    ∃ (state : PageState) (list : List Nat),
      (@machine .apart 4).run fourPages [.alloc 1, .free ⟨0, false⟩ 1] = some state ∧
      state.area.nodes.IsRing .head (list.map .page) ∧
      (list.map state.area.freePages).sum = 4 := by
  have runs : ((@machine .apart 4).step fourPages (.alloc 1)).any (fun state =>
      ((@machine .apart 4).step state (.free ⟨0, false⟩ 1)).any fun state =>
        decide (state.area.freePageNum = 4)) = true := by
    decide +kernel
  have first : fourPages.KeepsRuns (.alloc 1) := by
    intro page next used
    have head : page = 0 := (PageNode.page.inj (next.symm.trans (by decide +kernel)))
    subst head
    exact absurd used (by decide +kernel)
  cases allocated : (@machine .apart 4).step fourPages (.alloc 1) with
  | none => simp [allocated] at runs
  | some middle =>
      rw [allocated, Option.any_some] at runs
      have second : middle.KeepsRuns (.free ⟨0, false⟩ 1) := by
        refine ⟨rfl, ?_⟩
        intro q r next
        cases next
      cases freed : (@machine .apart 4).step middle (.free ⟨0, false⟩ 1) with
      | none => simp [freed] at runs
      | some state =>
          have num : state.area.freePageNum = 4 := by simpa [freed] using runs
          obtain ⟨list, ring, -, -, total⟩ := fields_describe_runs
            (.step (.step (.start ⟨_, rfl⟩) first allocated) second freed)
          refine ⟨state, list, ?_, ring, total.trans num⟩
          simp [allocated, freed]

/-- The exact fit of page 0 forgets the run of pages 2 and 3. -/
theorem exact_fit_forgets_run :
    ¬ ∀ state, (@machine .apart 4).Reachable state →
      ∃ list : List Nat, state.area.nodes.IsRing .head (list.map .page) ∧
        (list.map state.area.freePages).sum = state.area.freePageNum := by
  intro always
  have runs : ((@machine .apart 4).run fourPages [.alloc 1, .alloc 1, .free ⟨0, false⟩ 1, .alloc 1]).any
      (fun state => decide (state.area.freePages 2 = 0 ∧ state.area.freePages 3 = 0 ∧
        state.area.freePageNum = 2 ∧ state.blocks = [(0, 1), (1, 1)])) = true := by
    decide +kernel
  cases ran : (@machine .apart 4).run fourPages [.alloc 1, .alloc 1, .free ⟨0, false⟩ 1, .alloc 1] with
  | none => simp [ran] at runs
  | some state =>
      have facts : state.area.freePages 2 = 0 ∧ state.area.freePages 3 = 0 ∧
          state.area.freePageNum = 2 ∧ state.blocks = [(0, 1), (1, 1)] := by
        simpa only [ran, Option.any_some, decide_eq_true_eq] using runs
      have physical : ∀ op ∈ [PageOp.alloc 1, .alloc 1, .free ⟨0, false⟩ 1, .alloc 1], ∀ _ : PageState,
          FreesPhysical op := by
        simp [FreesPhysical]
      obtain ⟨list, ring, total⟩ := always state (.run (.start ⟨_, rfl⟩) ran)
      obtain ⟨known, sound⟩ := sound_of_reachable
        (reachable_physical (fun _ _ kept => kept) (.run (.start ⟨_, rfl⟩) physical ran)).1.reachable
      have same : list = known := by
        have nodes := ring.unique sound.ring
        exact (List.map_injective_iff.mpr fun _ _ => PageNode.page.inj) nodes
      subst same
      -- Neither page 0 nor page 1 is free, so only fields that are 0 are added up.
      have zero : ∀ p ∈ list, state.area.freePages p = 0 := by
        intro p member
        have bound := sound.bounded p member
        have notFirst : p ≠ 0 := by
          rintro rfl
          exact (sound.outside (0, 1) (by simp [facts]) 0 ⟨by decide, by decide⟩).1 member
        have notSecond : p ≠ 1 := by
          rintro rfl
          exact (sound.outside (1, 1) (by simp [facts]) 1 ⟨by decide, by decide⟩).1 member
        have cases : p = 2 ∨ p = 3 := by omega
        obtain rfl | rfl := cases
        · exact facts.1
        · exact facts.2.1
      rw [List.map_congr_left zero, facts.2.2.1] at total
      simp at total

end PageState

end WindOs.Mm
