import WindOs.Data.Tiling
import WindOs.Mm.PagePointers

namespace WindOs.Mm

open Data

/-! # No page is handed out twice

The allocator only ever takes pages from the front of its list.  The page with the
highest index therefore stays on the list as long as there is a list, and
`free_page` always finds a page to insert before.
-/

/-- The allocator with the blocks that are outstanding: first page and length. -/
structure PageState where
  area : FreeArea
  blocks : List (Nat × Nat)

inductive PageOp where
  | alloc (n : Nat)
  | free (page : PagePtr) (n : Nat)
deriving DecidableEq, Repr

namespace PageState

/-- One round more than there are pages is enough for every search.  A block of which the
pointer leads nowhere is in nobody's hands. -/
def step [Aliases] (count : Nat) (state : PageState) : PageOp → Option PageState
  | .alloc n =>
      if 1 ≤ n then
        (state.area.allocPage (count + 1) n).map fun result =>
          match result.1 with
          | some page =>
              if Aliases.wild state.area page then { state with area := result.2 }
              else { area := result.2, blocks := (page, n) :: state.blocks }
          | none => { state with area := result.2 }
      else none
  | .free page n =>
      if (page.page, n) ∈ state.blocks then
        (Aliases.freePage (count + 1) state.area page n).map fun area =>
          { area, blocks := state.blocks.erase (page.page, n) }
      else none

/-- A pool of `count` pages. -/
def machine [Aliases] (count : Nat) : Machine PageState PageOp where
  start state := ∃ nodes, state = { area := FreeArea.pageInit nodes count, blocks := [] }
  step := step count

/-- A page of the block. -/
def InBlock (block : Nat × Nat) (page : Nat) : Prop :=
  block.1 ≤ page ∧ page < block.1 + block.2

structure Sound (count : Nat) (state : PageState) (list : List Nat) : Prop where
  ring : state.area.nodes.IsRing .head (list.map .page)
  sorted : list.Pairwise (· < ·)
  bounded : ∀ page ∈ list, page < count
  num : state.area.freePageNum = list.length
  headed : Headed state.area.freePages list
  last : list ≠ [] → count - 1 ∈ list
  nonempty : ∀ block ∈ state.blocks, 0 < block.2
  outside : ∀ block ∈ state.blocks, ∀ page, InBlock block page → page ∉ list ∧ page < count
  interior : ∀ block ∈ state.blocks, ∀ page, InBlock block page → page ≠ block.1 →
    state.area.freePages page = 0
  disjoint : Apart InBlock state.blocks

variable {count n page : Nat} {state after : PageState} {list : List Nat}

theorem mem_block {block : Nat × Nat} : InBlock block page ↔ page ∈ List.range' block.1 block.2 := by
  rw [List.mem_range'_1, InBlock]

theorem mem_inserted {target q : Nat} {front back : List Nat} :
    q ∈ front ++ (List.range' page n ++ target :: back) ↔
      InBlock (page, n) q ∨ q ∈ front ++ target :: back := by
  rw [mem_block]
  simp only [List.mem_append]
  tauto

/-- What a step does to the list and to the outstanding blocks. -/
inductive Change (state : PageState) (list : List Nat) (after : PageState) :
    List Nat → PageOp → Prop where
  | refused {n : Nat} (same : after = state) : Change state list after list (.alloc n)
  | served {page n : Nat} {listed : List Nat} (whole : list = List.range' page n ++ listed)
      (blocks : after.blocks = (page, n) :: state.blocks) (positive : 0 < n)
      (large : n ≤ state.area.freePages page)
      (sizes : ∀ q tail, listed = q :: tail → after.area.freePages =
        Function.update state.area.freePages q (state.area.freePages page - n)) :
      Change state list after listed (.alloc n)
  | lost {page : PagePtr} {n : Nat} (member : (page.page, n) ∈ state.blocks) (empty : list = []) :
      Change state list after [] (.free page n)
  | freed {page : PagePtr} {n target : Nat} {front back : List Nat}
      (member : (page.page, n) ∈ state.blocks)
      (blocks : after.blocks = state.blocks.erase (page.page, n))
      (split : list = front ++ target :: back) (below : ∀ q ∈ front, q < page.page)
      (room : page.page + n ≤ target)
      (sizes : after.area.freePages =
        joinUp (joinDown state.area.freePages page.page n target) page.page front.getLast?) :
      Change state list after (front ++ (List.range' page.page n ++ target :: back)) (.free page n)

namespace Sound

theorem nodup (sound : Sound count state list) : list.Nodup :=
  sound.sorted.imp Nat.ne_of_lt

/-- A list of different pages is no longer than there are pages. -/
theorem length_le (sound : Sound count state list) : list.length ≤ count := by
  have inside : list ⊆ List.range count := by
    intro page member
    exact List.mem_range.mpr (sound.bounded page member)
  simpa using (sound.nodup.subperm inside).length_le

theorem init (nodes : Links PageNode) :
    Sound count { area := FreeArea.pageInit nodes count, blocks := [] } (List.range' 0 count) where
  ring := FreeArea.insertPages_head_ring listInit_ring
  sorted := List.pairwise_lt_range'
  bounded page member := by
    rw [List.mem_range'_1] at member
    omega
  num := by simp [FreeArea.pageInit]
  headed := by
    cases count with
    | zero => trivial
    | succ more =>
        rw [← cons_range 0 (by omega)]
        exact headed_cons_run (List.prefix_refl _) (fun _ _ => rfl)
          (by simpa using @headed_zeros (fun _ => 0) [] _ (fun _ _ => rfl) trivial) (by simp)
  last nonempty := by
    have positive : count ≠ 0 := fun none => nonempty (by simp [none])
    rw [List.mem_range'_1]
    omega
  nonempty _ member := by simp at member
  outside _ member := by simp at member
  interior _ member := by simp at member
  disjoint := List.Pairwise.nil

/-- `alloc_page` in a sound state. -/
theorem alloc (sound : Sound count state list) (positive : 0 < n) :
    state.area.allocPage (count + 1) n = some (none, state.area) ∨
      ∃ page rest area, list = List.range' page n ++ rest ∧
        state.area.allocPage (count + 1) n = some (some page, area) ∧
        Sound count { area, blocks := (page, n) :: state.blocks } rest ∧
        n ≤ state.area.freePages page ∧ (∀ q tail, rest = q :: tail →
          area.freePages = Function.update state.area.freePages q (state.area.freePages page - n)) ∧
        state.area.nodes.AgreeOff area.nodes (.head :: list.map .page) := by
  have length := sound.length_le
  rcases FreeArea.allocPage_spec sound.ring sound.nodup sound.num sound.headed positive
      (show list.length < count + 1 by omega) with refused | served
  · exact .inl refused
  · obtain ⟨page, rest, area, whole, zero, done, ring, num, headed, same, large, sizes, agree⟩ := served
    have inFront : ∀ q, InBlock (page, n) q → q ∈ list := by
      intro q member
      rw [whole]
      exact List.mem_append_left _ (mem_block.mp member)
    have inBack : ∀ q ∈ rest, q ∈ list := by
      intro q member
      rw [whole]
      exact List.mem_append_right _ member
    have sorted := sound.sorted
    rw [whole] at sorted
    obtain ⟨-, restSorted, across⟩ := List.pairwise_append.mp sorted
    refine .inr ⟨page, rest, area, whole, done, ⟨ring, restSorted,
      fun q member => sound.bounded q (inBack q member), num, headed, ?_, ?_, ?_, ?_, ?_⟩, large, sizes,
      agree⟩
    · intro nonempty
      obtain ⟨r, member⟩ := List.exists_mem_of_ne_nil rest nonempty
      have last := sound.last (List.ne_nil_of_mem (inBack r member))
      rw [whole] at last
      cases List.mem_append.mp last with
      | inl inRun =>
          have above := across _ inRun r member
          have below := sound.bounded r (inBack r member)
          omega
      | inr inRest => exact inRest
    · intro block member
      cases List.mem_cons.mp member with
      | inl new => simpa [new] using positive
      | inr old => exact sound.nonempty block old
    · intro block member q inside
      cases List.mem_cons.mp member with
      | inl new =>
          subst new
          refine ⟨?_, sound.bounded q (inFront q inside)⟩
          intro inRest
          have less := across q (mem_block.mp inside) q inRest
          omega
      | inr old =>
          obtain ⟨notListed, below⟩ := sound.outside block old q inside
          exact ⟨fun inRest => notListed (inBack q inRest), below⟩
    · intro block member q inside notFirst
      cases List.mem_cons.mp member with
      | inl new =>
          subst new
          have notRest : q ∉ rest := by
            intro inRest
            have less := across q (mem_block.mp inside) q inRest
            omega
          rw [same q notRest]
          apply zero
          rw [mem_block, List.mem_range'_1] at inside
          rw [List.mem_range'_1]
          omega
      | inr old =>
          have notListed := (sound.outside block old q inside).1
          rw [same q (fun inRest => notListed (inBack q inRest))]
          exact sound.interior block old q inside notFirst
    · refine List.pairwise_cons.mpr ⟨?_, sound.disjoint⟩
      intro block member q inNew inOld
      exact (sound.outside block member q inOld).1 (inFront q inNew)

/-- `alloc_page` returns `NULL` exactly if the first block of all is too small. -/
theorem refused_iff (sound : Sound count state list) (positive : 0 < n) :
    state.area.allocPage (count + 1) n = some (none, state.area) ↔
      ∀ p, list.head? = some p → state.area.freePages p < n := by
  constructor
  · intro refused p leads
    by_contra large
    obtain ⟨back, rfl⟩ := List.head?_eq_some_iff.mp leads
    have fits : state.area.freePages p ≥ n := by omega
    obtain ⟨rest, whole, -⟩ := sound.headed.take_run fits positive sound.nodup
    have many : ¬ n > state.area.freePageNum := by
      rw [sound.num, whole]
      simp
    have enough : (p :: back).length < count + 1 := by
      have length := sound.length_le
      omega
    rw [FreeArea.allocPage, if_neg many, FreeArea.search_first sound.ring enough] at refused
    simp [fits] at refused
  · intro short
    rcases sound.alloc positive with refused | ⟨page, rest, area, -, served, -⟩
    · exact refused
    · obtain ⟨leads, large⟩ := FreeArea.allocPage_first sound.ring served
      have small := short page leads
      omega

/-- `free_page` of an outstanding block in a sound state. -/
theorem free (sound : Sound count state list) (member : (page, n) ∈ state.blocks) (raised : Bool) :
    ∃ area listed, state.area.freePage (count + 1) page n = some area ∧
      Sound count { area, blocks := state.blocks.erase (page, n) } listed ∧
      Change state list { area, blocks := state.blocks.erase (page, n) } listed
        (.free ⟨page, raised⟩ n) ∧
      state.area.nodes.AgreeOff area.nodes (.head :: listed.map .page) := by
  have length := sound.length_le
  have positive := sound.nonempty _ member
  have first : InBlock (page, n) page := ⟨Nat.le_refl _, Nat.lt_add_of_pos_right positive⟩
  obtain ⟨apart, others⟩ := sound.disjoint.erase member
  have old : ∀ block ∈ state.blocks.erase (page, n), block ∈ state.blocks :=
    fun block inside => List.mem_of_mem_erase inside
  by_cases empty : list = []
  · subst empty
    refine ⟨state.area, [], ?_, ⟨sound.ring, sound.sorted, sound.bounded, sound.num, sound.headed,
      sound.last, fun block inside => sound.nonempty block (old block inside),
      fun block inside => sound.outside block (old block inside),
      fun block inside => sound.interior block (old block inside), apart⟩, .lost member rfl,
      .refl _ _⟩
    rw [FreeArea.freePage, loop_walk_ring sound.ring none (by simp)]
    rfl
  · have notListed := (sound.outside _ member page first).1
    have last := sound.last empty
    have below : page < count - 1 := by
      have bound := (sound.outside _ member page first).2
      have different : page ≠ count - 1 := fun same => notListed (same ▸ last)
      omega
    obtain ⟨front, target, back, rfl, lower, higher⟩ :=
      sorted_cut sound.sorted notListed ⟨_, last, below⟩
    have room : page + n ≤ target := by
      by_contra inside
      have inBlock : InBlock (page, n) target := ⟨by simp only; omega, by simp only; omega⟩
      exact (sound.outside _ member target inBlock).1 (by simp)
    have sorted := sorted_insert sound.sorted lower room
    have zero : ∀ q ∈ List.range' (page + 1) (n - 1), state.area.freePages q = 0 := by
      intro q inRun
      rw [List.mem_range'_1] at inRun
      exact sound.interior _ member q ⟨by simp only; omega, by simp only; omega⟩
        (by simp only; omega)
    obtain ⟨area, done, ring, num, headed, same, sizes, agree⟩ := FreeArea.freePage_spec sound.ring sorted
      sound.headed zero positive (show _ < count + 1 by omega)
    have outside : ∀ block ∈ state.blocks.erase (page, n), ∀ q, InBlock block q →
        q ∉ front ++ (List.range' page n ++ target :: back) := by
      intro block inside q holds inList
      cases mem_inserted.mp inList with
      | inl freed => exact others block inside q freed holds
      | inr before => exact (sound.outside block (old block inside) q holds).1 before
    refine ⟨area, _, done, ⟨ring, sorted, ?_, ?_, headed, ?_,
      fun block inside => sound.nonempty block (old block inside), ?_, ?_, apart⟩,
      @Change.freed _ _ _ ⟨page, raised⟩ n target front back member rfl rfl lower room sizes, agree⟩
    · intro q inList
      cases mem_inserted.mp inList with
      | inl freed => exact (sound.outside _ member q freed).2
      | inr before => exact sound.bounded q before
    · rw [num, sound.num]
      simp only [List.length_append, List.length_range', List.length_cons]
      omega
    · intro _
      exact mem_inserted.mpr (.inr last)
    · intro block inside q holds
      exact ⟨outside block inside q holds, (sound.outside block (old block inside) q holds).2⟩
    · intro block inside q holds notFirst
      rw [same q (outside block inside q holds)]
      exact sound.interior block (old block inside) q holds notFirst

/-- A step leaves a sound state, and this is what it did. -/
theorem step {op : PageOp} (sound : Sound count state list) (moved : state.step count op = some after) :
    ∃ listed, Sound count after listed ∧ Change state list after listed op := by
  cases op with
  | alloc n =>
      simp only [PageState.step] at moved
      split at moved
      · rename_i positive
        rcases sound.alloc positive with refused | ⟨page, rest, area, whole, served, kept, large, sizes, -⟩
        · rw [refused] at moved
          cases moved
          exact ⟨list, sound, .refused rfl⟩
        · rw [served] at moved
          cases moved
          exact ⟨rest, kept, .served whole rfl positive large sizes⟩
      · contradiction
  | free page n =>
      simp only [PageState.step] at moved
      split at moved
      · rename_i member
        obtain ⟨area, listed, done, kept, change, -⟩ := sound.free member page.raised
        rw [Aliases.freePage_together, done] at moved
        cases moved
        exact ⟨listed, kept, change⟩
      · contradiction

end Sound

theorem sound_of_reachable (reached : (machine count).Reachable state) :
    ∃ list, Sound count state list := by
  refine @Machine.Reachable.invariant _ _ _ (fun state => ∃ list, Sound count state list)
    ?_ ?_ _ reached
  · rintro _ ⟨nodes, rfl⟩
    exact ⟨_, Sound.init nodes⟩
  · rintro before op after ⟨list, sound⟩ moved
    obtain ⟨listed, kept, -⟩ := sound.step moved
    exact ⟨listed, kept⟩

/-- The free list over all runs: sorted, counted, headed by true sizes, and never
the home of a page that is handed out.  Every search comes to its end. -/
theorem pages_over_runs (reached : (machine count).Reachable state) :
    ∃ list : List Nat, state.area.nodes.IsRing .head (list.map .page) ∧
      list.Pairwise (· < ·) ∧ state.area.freePageNum = list.length ∧
      (∀ front page back, list = front ++ page :: back → 0 < state.area.freePages page →
        List.range' (page + 1) (state.area.freePages page - 1) <+: back) ∧
      (∀ n, 1 ≤ n → ∃ result area, state.area.allocPage (count + 1) n = some (result, area) ∧
        ∀ page, result = some page → ∀ i < n, page + i ∈ list) ∧
      (∀ block ∈ state.blocks, (state.area.freePage (count + 1) block.1 block.2).isSome) ∧
      Apart InBlock state.blocks ∧
      ∀ block ∈ state.blocks, ∀ page, InBlock block page → page ∉ list := by
  obtain ⟨list, sound⟩ := sound_of_reachable reached
  refine ⟨list, sound.ring, sound.sorted, sound.num, ?_, ?_, ?_, sound.disjoint,
    fun block member page inside => (sound.outside block member page inside).1⟩
  · rintro front page back rfl positive
    exact (sound.headed.of_append.1 positive).1
  · intro n positive
    rcases sound.alloc positive with refused | ⟨page, rest, area, whole, served, -⟩
    · exact ⟨none, state.area, refused, by simp⟩
    · refine ⟨some page, area, served, ?_⟩
      intro returned same i small
      cases same
      rw [whole, List.mem_append, List.mem_range'_1]
      omega
  · intro block member
    obtain ⟨area, _, done, -⟩ := sound.free member false
    simp [done]

/-- A pool of four pages before its first call. -/
def fourPages : PageState where
  area := FreeArea.pageInit { next := id, prev := id } 4
  blocks := []

theorem pages_over_runs_two_blocks :
    ∃ (state : PageState) (list : List Nat),
      (machine 4).run fourPages [.alloc 1, .alloc 2, .free ⟨0, true⟩ 1] = some state ∧
      state.blocks = [(1, 2)] ∧ state.area.nodes.IsRing .head (list.map .page) ∧
      list.length = 2 ∧ 1 ∉ list ∧ 2 ∉ list := by
  have runs : ((machine 4).run fourPages [.alloc 1, .alloc 2, .free ⟨0, true⟩ 1]).any (fun state =>
      decide (state.blocks = [(1, 2)] ∧ state.area.freePageNum = 2)) = true := by
    decide +kernel
  cases ran : (machine 4).run fourPages [.alloc 1, .alloc 2, .free ⟨0, true⟩ 1] with
  | none => simp [ran] at runs
  | some state =>
      have facts : state.blocks = [(1, 2)] ∧ state.area.freePageNum = 2 := by simpa [ran] using runs
      obtain ⟨list, ring, -, num, -, -, -, -, outside⟩ :=
        pages_over_runs (.run (.start ⟨_, rfl⟩) ran)
      have block : (1, 2) ∈ state.blocks := by simp [facts.1]
      refine ⟨state, list, rfl, facts.1, ring, by omega, ?_, ?_⟩
      · exact outside _ block 1 ⟨by decide, by decide⟩
      · exact outside _ block 2 ⟨by decide, by decide⟩

section Pointers

variable {op : PageOp}

/-- `free_page` is given the physical pointer. -/
def FreesPhysical : PageOp → Prop
  | .alloc _ => True
  | .free page _ => page.raised = false

/-- Where no page has a raised pointer, a step with physical pointers is one of indices. -/
theorem step_physical (low : ∀ p, state.area.raised p = false) (physical : FreesPhysical op)
    (moved : @PageState.step .apart count state op = some after) :
    state.step count op = some after ∧ ∀ p, after.area.raised p = false := by
  cases op with
  | alloc n =>
      simp only [PageState.step] at moved ⊢
      split at moved
      · next positive =>
          rw [if_pos positive]
          obtain ⟨⟨found, area⟩, done, taken⟩ := Option.map_eq_some_iff.mp moved
          have same : area.raised = state.area.raised := FreeArea.allocPage_raised done
          rw [done]
          cases found with
          | none =>
              cases taken
              exact ⟨rfl, fun p => same ▸ low p⟩
          | some page =>
              have tame : @Aliases.wild .apart state.area page = false := low page
              simp only [tame, Bool.false_eq_true, if_false] at taken
              cases taken
              exact ⟨rfl, fun p => same ▸ low p⟩
      · cases moved
  | free page n =>
      obtain ⟨page, raised⟩ := page
      obtain rfl : raised = false := physical
      simp only [PageState.step] at moved ⊢
      split at moved
      · next held =>
          rw [if_pos held]
          obtain ⟨area, done, rfl⟩ := Option.map_eq_some_iff.mp moved
          have index : state.area.freePage (count + 1) page n = some area :=
            (FreeArea.freePtr_physical low).symm.trans done
          rw [Aliases.freePage_together, index]
          exact ⟨rfl, fun p => (FreeArea.freePage_raised index) ▸ low p⟩
      · cases moved

theorem reachable_physical {permitted : PageState → PageOp → Prop}
    (physical : ∀ state op, permitted state op → FreesPhysical op)
    (reached : (@machine .apart count).ReachableWithin permitted state) :
    (machine count).ReachableWithin permitted state ∧ ∀ p, state.area.raised p = false := by
  induction reached with
  | start initial =>
      refine ⟨.start initial, ?_⟩
      obtain ⟨nodes, rfl⟩ := initial
      exact fun _ => rfl
  | step _ allowed moved ih =>
      obtain ⟨before, low⟩ := ih
      obtain ⟨same, kept⟩ := step_physical low (physical _ _ allowed) moved
      exact ⟨.step before allowed same, kept⟩

end Pointers

/-- `free_page` is not called while the list is empty, and is given the physical pointer. -/
def FreesIntoList (state : PageState) (op : PageOp) : Prop :=
  FreesPhysical op ∧ ∀ page n, op = .free page n → state.area.freePageNum ≠ 0

/-- Every page is on the list or outstanding. -/
structure Conserved (count : Nat) (state : PageState) (list : List Nat) : Prop where
  total : list.length + (state.blocks.map Prod.snd).sum = count
  covered : ∀ page < count, page ∈ list ∨ Covered InBlock state.blocks page

theorem sum_erase {blocks : List (Nat × Nat)} {block : Nat × Nat} (member : block ∈ blocks) :
    block.2 + ((blocks.erase block).map Prod.snd).sum = (blocks.map Prod.snd).sum := by
  have moved := ((List.perm_cons_erase member).map Prod.snd).sum_nat
  rw [moved]
  simp

theorem Conserved.step {op : PageOp} {listed : List Nat} (conserved : Conserved count state list)
    (sound : Sound count state list) (change : Change state list after listed op)
    (allowed : FreesIntoList state op) : Conserved count after listed := by
  cases change with
  | refused same => exact ⟨same ▸ conserved.total, same ▸ conserved.covered⟩
  | served whole blocks _ _ _ =>
      constructor
      · have total := conserved.total
        rw [whole, List.length_append, List.length_range'] at total
        rw [blocks, List.map_cons, List.sum_cons]
        omega
      · intro q inPool
        rw [blocks, covered_cons]
        cases conserved.covered q inPool with
        | inl free =>
            rw [whole, List.mem_append] at free
            cases free with
            | inl taken => exact .inr (.inl (mem_block.mpr taken))
            | inr left => exact .inl left
        | inr outstanding => exact .inr (.inr outstanding)
  | lost _ empty =>
      subst empty
      exact absurd sound.num (allowed.2 _ _ rfl)
  | @freed page n target front back member blocks split _ _ _ =>
      subst split
      constructor
      · have total := conserved.total
        have erased := sum_erase member
        rw [blocks]
        simp only [List.length_append, List.length_range'] at total erased ⊢
        omega
      · intro q inPool
        rw [blocks, mem_inserted]
        cases conserved.covered q inPool with
        | inl free => exact .inl (.inr free)
        | inr outstanding =>
            obtain ⟨block, inside, holds⟩ := outstanding
            by_cases same : block = (page.page, n)
            · exact .inl (.inl (same ▸ holds))
            · exact .inr ⟨block, (List.mem_erase_of_ne same).mpr inside, holds⟩

theorem conserved_of_reachable (reached : (machine count).ReachableWithin FreesIntoList state) :
    ∃ list, Sound count state list ∧ Conserved count state list := by
  refine @Machine.ReachableWithin.invariant _ _ _ _
    (fun state => ∃ list, Sound count state list ∧ Conserved count state list) ?_ ?_ _ reached
  · rintro _ ⟨nodes, rfl⟩
    refine ⟨_, Sound.init nodes, by simp, ?_⟩
    intro page inPool
    left
    rw [List.mem_range'_1]
    omega
  · rintro before op after ⟨list, sound, conserved⟩ allowed moved
    obtain ⟨listed, kept, change⟩ := sound.step moved
    exact ⟨listed, kept, conserved.step sound change allowed⟩

/-- As long as no block is freed into an empty list or by its raised pointer, each page is on
the free list or in exactly one outstanding block, and the counts add up to the size of the pool. -/
theorem no_page_lost (reached : (@machine .apart count).ReachableWithin FreesIntoList state) :
    ∃ list : List Nat, state.area.nodes.IsRing .head (list.map .page) ∧
      (∀ page < count, page ∈ list ∧ (∀ block ∈ state.blocks, ¬ InBlock block page) ∨
        page ∉ list ∧ ∃! block, block ∈ state.blocks ∧ InBlock block page) ∧
      state.area.freePageNum + (state.blocks.map Prod.snd).sum = count := by
  obtain ⟨list, sound, conserved⟩ :=
    conserved_of_reachable (reachable_physical (fun _ _ allowed => allowed.1) reached).1
  refine ⟨list, sound.ring, ?_, sound.num ▸ conserved.total⟩
  intro page inPool
  cases conserved.covered page inPool with
  | inl free =>
      refine .inl ⟨free, ?_⟩
      intro block member inside
      exact (sound.outside block member page inside).1 free
  | inr outstanding =>
      obtain ⟨block, member, inside⟩ := outstanding
      refine .inr ⟨(sound.outside block member page inside).1, block, ⟨member, inside⟩, ?_⟩
      rintro other ⟨alsoMember, alsoInside⟩
      exact sound.disjoint.unique alsoMember member alsoInside inside

/-- A block of half the pool, freed while the other half is on the list. -/
theorem no_page_lost_half_pool :
    ∃ (state : PageState) (list : List Nat),
      (@machine .apart 4).run fourPages [.alloc 2, .free ⟨0, false⟩ 2] = some state ∧
      state.area.nodes.IsRing .head (list.map .page) ∧
      state.area.freePageNum + (state.blocks.map Prod.snd).sum = 4 := by
  have first : ((@machine .apart 4).step fourPages (.alloc 2)).any (fun state =>
      decide (state.area.freePageNum ≠ 0) &&
        ((@machine .apart 4).step state (.free ⟨0, false⟩ 2)).isSome) = true := by
    decide +kernel
  cases allocated : (@machine .apart 4).step fourPages (.alloc 2) with
  | none => simp [allocated] at first
  | some middle =>
      simp only [allocated, Option.any_some, Bool.and_eq_true, decide_eq_true_eq] at first
      obtain ⟨state, freed⟩ := Option.isSome_iff_exists.mp first.2
      have nothing : fourPages.FreesIntoList (.alloc 2) := ⟨trivial, fun _ _ other => nomatch other⟩
      have listed : middle.FreesIntoList (.free ⟨0, false⟩ 2) := ⟨rfl, fun _ _ _ => first.1⟩
      obtain ⟨list, ring, -, total⟩ := no_page_lost
        (.step (.step (.start ⟨_, rfl⟩) nothing allocated) listed freed)
      refine ⟨state, list, ?_, ring, total⟩
      simp [allocated, freed]

/-- The whole pool is allocated and given back, and all its pages are lost. -/
theorem whole_pool_lost :
    ¬ ∀ state, (@machine .apart 4).Reachable state →
      state.area.freePageNum + (state.blocks.map Prod.snd).sum = 4 := by
  intro always
  have runs : ((@machine .apart 4).run fourPages [.alloc 4, .free ⟨0, false⟩ 4]).any (fun state =>
      decide (state.area.freePageNum + (state.blocks.map Prod.snd).sum = 0)) = true := by
    decide +kernel
  cases ran : (@machine .apart 4).run fourPages [.alloc 4, .free ⟨0, false⟩ 4] with
  | none => simp [ran] at runs
  | some state =>
      have total := always state (.run (.start ⟨_, rfl⟩) ran)
      have lost : state.area.freePageNum + (state.blocks.map Prod.snd).sum = 0 := by
        simpa only [ran, Option.any_some, decide_eq_true_eq] using runs
      omega

/-- By its raised pointer page 0 goes in front of page 3, and is unlinked in place of page 3, which
is handed out and still free. -/
example : ((@machine .apart 4).run fourPages
    [.alloc 1, .free ⟨0, true⟩ 1, .alloc 1, .alloc 2]).any (fun state =>
      decide (state.blocks = [(2, 2), (1, 1)] ∧ state.area.nodes.next .head = .page 3)) = true := by
  decide +kernel

end PageState

end WindOs.Mm
