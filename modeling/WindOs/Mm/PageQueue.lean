import WindOs.Mm.PageBlocks

namespace WindOs.Mm

open Data

/-! # The free list and the replacement queue

Both go through the one `node` of a page.  They do not disturb each other as long as
no page is on both: a page that is on neither is counted among the blocks that are
handed out, with length 1.  That the lists are rings does not depend on how the two
pointers of a page compare, as the order of the free list and its fields do.
-/

namespace PageState

variable {count n page : Nat} {state : PageState} {free fifo : List Nat}

namespace Sound

/-- Only the ring of the free list matters. -/
theorem withNodes {nodes : Links PageNode} (sound : Sound count state free)
    (ring : nodes.IsRing .head (free.map .page)) :
    Sound count { state with area := { state.area with nodes } } free :=
  ⟨ring, sound.sorted, sound.bounded, sound.num, sound.headed, sound.last, sound.nonempty,
    sound.outside, sound.interior, sound.disjoint⟩

/-- A page that is neither free nor in a block is a block of its own. -/
theorem hold (sound : Sound count state free) (below : page < count) (notFree : page ∉ free)
    (unheld : ∀ block ∈ state.blocks, ¬ InBlock block page) :
    Sound count { state with blocks := (page, 1) :: state.blocks } free := by
  have single : ∀ q, InBlock (page, 1) q → q = page := by
    intro q inside
    simp only [InBlock] at inside
    omega
  refine ⟨sound.ring, sound.sorted, sound.bounded, sound.num, sound.headed, sound.last, ?_, ?_, ?_,
    List.pairwise_cons.mpr ⟨?_, sound.disjoint⟩⟩
  · intro block member
    cases List.mem_cons.mp member with
    | inl new => simp [new]
    | inr old => exact sound.nonempty block old
  · intro block member q inside
    cases List.mem_cons.mp member with
    | inl new =>
        rw [new] at inside
        rw [single q inside]
        exact ⟨notFree, below⟩
    | inr old => exact sound.outside block old q inside
  · intro block member q inside notFirst
    cases List.mem_cons.mp member with
    | inl new =>
        rw [new] at inside notFirst
        exact absurd (single q inside) notFirst
    | inr old => exact sound.interior block old q inside notFirst
  · intro block member q inNew inOld
    rw [single q inNew] at inOld
    exact unheld block member inOld

/-- Blocks may be forgotten. -/
theorem forget {blocks : List (Nat × Nat)} (sound : Sound count state free)
    (fewer : blocks.Sublist state.blocks) : Sound count { state with blocks } free where
  ring := sound.ring
  sorted := sound.sorted
  bounded := sound.bounded
  num := sound.num
  headed := sound.headed
  last := sound.last
  nonempty block member := sound.nonempty block (fewer.subset member)
  outside block member := sound.outside block (fewer.subset member)
  interior block member := sound.interior block (fewer.subset member)
  disjoint := sound.disjoint.sublist fewer

end Sound

/-- The pages on the list after `free_page`, which does nothing to an empty list. -/
theorem Change.members {after : PageState} {listed : List Nat} {page : PagePtr}
    (change : Change state free after listed (.free page n)) (q : Nat) :
    q ∈ listed ↔ free ≠ [] ∧ (q ∈ free ∨ InBlock (page.page, n) q) := by
  cases change with
  | lost _ empty => simp [empty]
  | freed _ _ split _ _ _ =>
      rw [split, mem_inserted]
      simp only [ne_eq, List.append_eq_nil_iff, reduceCtorEq, and_false, not_false_eq_true, true_and]
      exact or_comm

/-- The first `n` pages of the list are the block of the first of them. -/
def Consecutive (area : FreeArea) (n : Nat) : Prop :=
  ∀ p, area.nodes.next .head = .page p → n ≤ area.freePages p →
    ∀ i < n, area.nodes.next^[i] (.page p) = .page (p + i)

theorem consecutive_one {area : FreeArea} : Consecutive area 1 := by
  intro p _ _ i small
  obtain rfl : i = 0 := by omega
  rfl

/-- Two rings, apart from each other and from what is handed out. -/
structure Rings (count : Nat) (state : PageState) (free fifo : List Nat) : Prop where
  ring : state.area.nodes.IsRing .head (free.map .page)
  listed : ∀ p ∈ free, p < count
  queue : state.area.nodes.IsRing .vmFifo (fifo.map .page)
  bounded : ∀ p ∈ fifo, p < count
  apart : ∀ p ∈ fifo, p ∉ free
  unheld : ∀ p ∈ fifo, ∀ block ∈ state.blocks, ¬ InBlock block p
  outside : ∀ block ∈ state.blocks, ∀ p, InBlock block p → p ∉ free ∧ p < count
  disjoint : Apart InBlock state.blocks

theorem inBlock_one {p : Nat} : InBlock (page, 1) p ↔ p = page := by
  simp only [InBlock]
  omega

namespace Rings

theorem nodup (rings : Rings count state free fifo) : free.Nodup :=
  (List.nodup_cons.mp rings.ring.nodup).2.of_map

theorem length_le (rings : Rings count state free fifo) : free.length ≤ count := by
  have inside : free ⊆ List.range count := by
    intro p member
    exact List.mem_range.mpr (rings.listed p member)
  simpa using (rings.nodup.subperm inside).length_le

/-- An edit of the free list leaves the queue alone. -/
theorem queue_agreeOff {nodes : Links PageNode} {list : List Nat}
    (queue : state.area.nodes.IsRing .vmFifo (fifo.map .page))
    (agree : state.area.nodes.AgreeOff nodes (.head :: list.map .page))
    (apart : ∀ p ∈ fifo, p ∉ list) : nodes.IsRing .vmFifo (fifo.map .page) := by
  apply queue.agreeOff agree
  intro node member
  cases List.mem_cons.mp member with
  | inl head => simp [head]
  | inr inside =>
      obtain ⟨p, queued, rfl⟩ := List.mem_map.mp inside
      simpa using apart p queued

/-- An edit of the queue leaves the free list alone. -/
theorem ring_agreeOff {nodes : Links PageNode} {list : List Nat}
    (ring : state.area.nodes.IsRing .head (free.map .page))
    (agree : state.area.nodes.AgreeOff nodes (.vmFifo :: list.map .page))
    (apart : ∀ p ∈ list, p ∉ free) : nodes.IsRing .head (free.map .page) := by
  apply ring.agreeOff agree
  intro node member queued
  cases List.mem_cons.mp member with
  | inl head => simp [head] at queued
  | inr inside =>
      obtain ⟨q, listed, rfl⟩ := List.mem_map.mp inside
      exact apart q (by simpa using queued) listed

theorem take_consecutive {first : Nat} {back : List Nat}
    (ring : state.area.nodes.IsRing .head ((first :: back).map .page)) (positive : 0 < n)
    (run : ∀ i < n, state.area.nodes.next^[i] (.page first) = .page (first + i)) :
    ∃ rest, first :: back = List.range' first n ++ rest := by
  induction n, positive using Nat.le_induction with
  | base => exact ⟨back, rfl⟩
  | succ n positive ih =>
      obtain ⟨rest, whole⟩ := ih fun i small => run i (Nat.lt_succ_of_lt small)
      obtain ⟨m, rfl⟩ : ∃ m, n = m + 1 := ⟨n - 1, by omega⟩
      have split : first :: back = List.range' first m ++ (first + m) :: rest := by
        rw [whole, List.range'_1_concat, List.append_assoc]
        rfl
      have behind := run (m + 1) (Nat.lt_succ_self _)
      rw [Function.iterate_succ_apply', run m (by omega)] at behind
      rw [split, List.map_append, List.map_cons] at ring
      rw [ring.next_member] at behind
      cases rest with
      | nil => cases behind
      | cons q tail =>
          obtain rfl : q = first + (m + 1) := PageNode.page.inj behind
          refine ⟨tail, ?_⟩
          rw [whole, @List.range'_1_concat first (m + 1), List.append_assoc]
          rfl

/-- The pages that `alloc_page` unlinks are those that it hands out. -/
theorem alloc (rings : Rings count state free fifo) (positive : 0 < n)
    (consecutive : Consecutive state.area n) :
    state.area.allocPage (count + 1) n = some (none, state.area) ∨
      ∃ page rest area, free = List.range' page n ++ rest ∧
        state.area.allocPage (count + 1) n = some (some page, area) ∧
        Rings count { area, blocks := (page, n) :: state.blocks } rest fifo := by
  have enough : free.length < count + 1 := Nat.lt_succ_of_le rings.length_le
  rw [FreeArea.allocPage, FreeArea.search_first rings.ring enough]
  by_cases many : n > state.area.freePageNum
  · exact .inl (if_pos many)
  · rw [if_neg many]
    cases free with
    | nil => exact .inl rfl
    | cons page back =>
        by_cases large : state.area.freePages page ≥ n
        · obtain ⟨rest, whole⟩ := take_consecutive rings.ring positive
            (consecutive page rings.ring.next_head large)
          have ring := rings.ring
          rw [whole, List.map_append] at ring
          have deleted := FreeArea.deletePages_ring ring
          have agree := FreeArea.deletePages_agreeOff ring
          have first : ((List.range' page n).map PageNode.page ++ rest.map PageNode.page).headD .head =
              .page page := by
            rw [← List.map_append, ← whole]
            rfl
          rw [first, List.length_map, List.length_range'] at deleted agree
          rw [← List.map_append] at agree
          have inRest : ∀ p ∈ rest, p ∈ page :: back := by
            intro p member
            rw [whole]
            exact List.mem_append_right _ member
          have taken : ∀ p, InBlock (page, n) p → p ∈ page :: back := by
            intro p inside
            rw [whole]
            exact List.mem_append_left _ (mem_block.mp inside)
          have nodup := rings.nodup
          rw [whole] at nodup
          refine .inr ⟨page, rest, _, whole, by simp only [if_pos large, Option.map_some]; rfl, ?_⟩
          refine ⟨?_, fun p member => rings.listed p (inRest p member), ?_, rings.bounded,
            fun p queued member => rings.apart p queued (inRest p member), ?_, ?_, ?_⟩
          · simpa using deleted.1
          · simp only [FreeArea.setPage_nodes]
            exact queue_agreeOff rings.queue agree (whole ▸ rings.apart)
          · intro p queued block member inside
            cases List.mem_cons.mp member with
            | inl new => exact rings.apart p queued (taken p (new ▸ inside))
            | inr old => exact rings.unheld p queued block old inside
          · intro block member p inside
            cases List.mem_cons.mp member with
            | inl new =>
                subst new
                refine ⟨?_, rings.listed p (taken p inside)⟩
                intro member
                exact (List.nodup_append.mp nodup).2.2 p (mem_block.mp inside) p member rfl
            | inr old =>
                obtain ⟨notFree, below⟩ := rings.outside block old p inside
                exact ⟨fun member => notFree (inRest p member), below⟩
          · refine List.pairwise_cons.mpr ⟨?_, rings.disjoint⟩
            intro block member p inNew inOld
            exact (rings.outside block member p inOld).1 (taken p inNew)
        · exact .inl (by simp only [if_neg large, Option.map_some])

/-- `free_page` of a block by either of its pointers, and which pages are on the list then. -/
theorem giveBack [Aliases] {page : PagePtr} (rings : Rings count state free fifo)
    (member : (page.page, n) ∈ state.blocks) :
    ∃ area listed, Aliases.freePage (count + 1) state.area page n = some area ∧
      Rings count { area, blocks := state.blocks.erase (page.page, n) } listed fifo ∧
      ∀ q, q ∈ listed ↔ free ≠ [] ∧ (q ∈ free ∨ InBlock (page.page, n) q) := by
  have fresh : ∀ i < n, page.page + i ∉ free := by
    intro i small
    exact (rings.outside _ member _ ⟨Nat.le_add_right _ _, Nat.add_lt_add_left small _⟩).1
  obtain ⟨area, listed, done, inserts⟩ := Aliases.inserts rings.ring
    (Nat.lt_succ_of_le rings.length_le) fresh
  have apart : ∀ p ∈ fifo, p ∉ listed := by
    intro p queued inList
    cases ((inserts.members p).mp inList).2 with
    | inl before => exact rings.apart p queued before
    | inr freed => exact rings.unheld p queued _ member freed
  obtain ⟨others, erased⟩ := rings.disjoint.erase member
  refine ⟨area, listed, done, ⟨inserts.ring, ?_, queue_agreeOff rings.queue inserts.agree apart,
    rings.bounded, apart, fun p queued block inside => rings.unheld p queued block
      (List.mem_of_mem_erase inside), ?_, others⟩, inserts.members⟩
  · intro p inList
    cases ((inserts.members p).mp inList).2 with
    | inl before => exact rings.listed p before
    | inr freed => exact (rings.outside _ member p freed).2
  · intro block inside p holds
    obtain ⟨notFree, below⟩ := rings.outside block (List.mem_of_mem_erase inside) p holds
    refine ⟨?_, below⟩
    intro inList
    cases ((inserts.members p).mp inList).2 with
    | inl before => exact notFree before
    | inr freed => exact erased block inside p freed holds

theorem hold (rings : Rings count state free fifo) (below : page < count) (notFree : page ∉ free)
    (notQueued : page ∉ fifo) (unheld : ∀ block ∈ state.blocks, ¬ InBlock block page) :
    Rings count { state with blocks := (page, 1) :: state.blocks } free fifo := by
  refine ⟨rings.ring, rings.listed, rings.queue, rings.bounded, rings.apart, ?_, ?_,
    List.pairwise_cons.mpr ⟨?_, rings.disjoint⟩⟩
  · intro p queued block member inside
    cases List.mem_cons.mp member with
    | inl new =>
        rw [new, inBlock_one] at inside
        exact notQueued (inside ▸ queued)
    | inr old => exact rings.unheld p queued block old inside
  · intro block member p inside
    cases List.mem_cons.mp member with
    | inl new =>
        rw [new, inBlock_one] at inside
        rw [inside]
        exact ⟨notFree, below⟩
    | inr old => exact rings.outside block old p inside
  · intro block member p inNew inOld
    rw [inBlock_one.mp inNew] at inOld
    exact unheld block member inOld

theorem forget {blocks : List (Nat × Nat)} (rings : Rings count state free fifo)
    (fewer : blocks.Sublist state.blocks) : Rings count { state with blocks } free fifo :=
  ⟨rings.ring, rings.listed, rings.queue, rings.bounded, rings.apart,
    fun p queued block member => rings.unheld p queued block (fewer.subset member),
    fun block member => rings.outside block (fewer.subset member), rings.disjoint.sublist fewer⟩

/-- A page leaves the queue. -/
theorem dequeue {front back : List Nat} (rings : Rings count state free (front ++ page :: back)) :
    Rings count
      { area := { state.area with nodes := listDelete state.area.nodes (.page page) }
        blocks := (page, 1) :: state.blocks } free (front ++ back) := by
  have agree := @listDelete_agreeOff _ _ _ _ (PageNode.page page) _ rings.queue (by simp)
  have shorter : (listDelete state.area.nodes (.page page)).IsRing .vmFifo
      ((front ++ back).map .page) := by
    have whole := rings.queue
    rw [List.map_append, List.map_cons] at whole
    rw [List.map_append]
    exact listDelete_ring whole
  have others : ∀ p ∈ front ++ back, p ∈ front ++ page :: back := by
    intro p queued
    simp only [List.mem_append, List.mem_cons] at queued ⊢
    tauto
  have nodup := (List.nodup_cons.mp rings.queue.nodup).2.of_map
  have rest : Rings count { state with
      area := { state.area with nodes := listDelete state.area.nodes (.page page) } } free
      (front ++ back) :=
    ⟨ring_agreeOff rings.ring agree rings.apart, rings.listed, shorter,
      fun p queued => rings.bounded p (others p queued), fun p queued => rings.apart p (others p queued),
      fun p queued => rings.unheld p (others p queued), rings.outside, rings.disjoint⟩
  exact rest.hold (rings.bounded page (by simp)) (rings.apart page (by simp))
    (List.nodup_middle.mp nodup |> List.nodup_cons.mp).1 (rings.unheld page (by simp))

/-- A page that was handed out joins the queue as its last. -/
theorem enqueue {area : FreeArea} {blocks : List (Nat × Nat)}
    (rings : Rings count { area, blocks := (page, 1) :: blocks } free fifo) :
    Rings count
      { area := { area with nodes := listInsertBefore area.nodes .vmFifo (.page page) }
        blocks } free (fifo ++ [page]) := by
  have self : InBlock (page, 1) page := inBlock_one.mpr rfl
  obtain ⟨notFree, below⟩ := rings.outside (page, 1) (by simp) page self
  have notQueued : page ∉ fifo := fun queued => rings.unheld page queued (page, 1) (by simp) self
  have fresh : PageNode.page page ∉ .vmFifo :: fifo.map .page := by simpa using notQueued
  have agree := listInsertBefore_agreeOff rings.queue List.mem_cons_self fresh
  have members : ∀ p ∈ fifo ++ [page], p ∈ fifo ∨ p = page := by simp
  have apart : ∀ p ∈ fifo ++ [page], p ∉ free := by
    intro p queued
    cases members p queued with
    | inl before => exact rings.apart p before
    | inr new => exact new ▸ notFree
  have ring : (listInsertBefore area.nodes .vmFifo (.page page)).IsRing .head (free.map .page) := by
    refine @ring_agreeOff _ _ _ (fifo ++ [page]) rings.ring (agree.mono ?_) apart
    intro node member
    simp only [List.map_append, List.map_cons, List.map_nil, List.mem_cons, List.mem_append] at member ⊢
    tauto
  have fewer := rings.forget (List.sublist_cons_self (page, 1) blocks)
  refine ⟨ring, rings.listed, ?_, ?_, apart, ?_, fewer.outside, fewer.disjoint⟩
  · rw [List.map_append]
    exact listInsertBefore_head_ring rings.queue fresh
  · intro p queued
    cases members p queued with
    | inl before => exact rings.bounded p before
    | inr new => exact new ▸ below
  · intro p queued block member
    cases members p queued with
    | inl before => exact rings.unheld p before block (List.mem_cons_of_mem _ member)
    | inr new =>
        rw [new]
        exact (List.pairwise_cons.mp rings.disjoint).1 block member page self

end Rings

/-- The rings, with the order of the free list and its fields. -/
structure Queues (count : Nat) (state : PageState) (free fifo : List Nat) : Prop where
  sound : Sound count state free
  ring : state.area.nodes.IsRing .vmFifo (fifo.map .page)
  bounded : ∀ p ∈ fifo, p < count
  apart : ∀ p ∈ fifo, p ∉ free
  unheld : ∀ p ∈ fifo, ∀ block ∈ state.blocks, ¬ InBlock block p

namespace Queues

theorem rings (queues : Queues count state free fifo) : Rings count state free fifo :=
  ⟨queues.sound.ring, queues.sound.bounded, queues.ring, queues.bounded, queues.apart,
    queues.unheld, queues.sound.outside, queues.sound.disjoint⟩

theorem of_rings (sound : Sound count state free) (rings : Rings count state free fifo) :
    Queues count state free fifo :=
  ⟨sound, rings.queue, rings.bounded, rings.apart, rings.unheld⟩

/-- `list_init(&mm->vm_fifo)` in `create_mm`. -/
theorem init (sound : Sound count state free) :
    Queues count { state with area := { state.area with
      nodes := listInit state.area.nodes .vmFifo } } free [] := by
  have ring : (listInit state.area.nodes .vmFifo).IsRing .head (free.map .page) := by
    apply sound.ring.frame
    · intro node member
      have different : node ≠ .vmFifo := by
        rintro rfl
        simp at member
      simp [listInit, different]
    · intro node member
      have different : node ≠ .vmFifo := by
        rintro rfl
        simp at member
      simp [listInit, different]
  exact ⟨sound.withNodes ring, listInit_ring, by simp, by simp, by simp⟩

theorem alloc (queues : Queues count state free fifo) (positive : 0 < n) :
    state.area.allocPage (count + 1) n = some (none, state.area) ∨
      ∃ page rest area, free = List.range' page n ++ rest ∧
        state.area.allocPage (count + 1) n = some (some page, area) ∧
        Queues count { area, blocks := (page, n) :: state.blocks } rest fifo := by
  rcases queues.sound.alloc positive with refused |
      ⟨page, rest, area, whole, served, sound, -, -, agree⟩
  · exact .inl refused
  · refine .inr ⟨page, rest, area, whole, served, sound,
      Rings.queue_agreeOff queues.ring agree queues.apart, queues.bounded, ?_, ?_⟩
    · intro p queued inRest
      exact queues.apart p queued (by rw [whole]; exact List.mem_append_right _ inRest)
    · intro p queued block member inside
      cases List.mem_cons.mp member with
      | inl new =>
          rw [new] at inside
          apply queues.apart p queued
          rw [whole]
          exact List.mem_append_left _ (mem_block.mp inside)
      | inr old => exact queues.unheld p queued block old inside

/-- `free_page` of a block, and which pages are on the list then. -/
theorem giveBack (queues : Queues count state free fifo) (member : (page, n) ∈ state.blocks) :
    ∃ area listed, state.area.freePage (count + 1) page n = some area ∧
      Queues count { area, blocks := state.blocks.erase (page, n) } listed fifo ∧
      ∀ q, q ∈ listed ↔ free ≠ [] ∧ (q ∈ free ∨ InBlock (page, n) q) := by
  obtain ⟨area, listed, done, sound, change, agree⟩ := queues.sound.free member false
  have apart : ∀ p ∈ fifo, p ∉ listed := by
    intro p queued inList
    cases ((change.members p).mp inList).2 with
    | inl before => exact queues.apart p queued before
    | inr freed => exact queues.unheld p queued _ member freed
  exact ⟨area, listed, done, ⟨sound, Rings.queue_agreeOff queues.ring agree apart, queues.bounded,
    apart, fun p queued block inside => queues.unheld p queued block
      (List.mem_of_mem_erase inside)⟩, change.members⟩

theorem hold (queues : Queues count state free fifo) (below : page < count) (notFree : page ∉ free)
    (notQueued : page ∉ fifo) (unheld : ∀ block ∈ state.blocks, ¬ InBlock block page) :
    Queues count { state with blocks := (page, 1) :: state.blocks } free fifo :=
  .of_rings (queues.sound.hold below notFree unheld)
    (queues.rings.hold below notFree notQueued unheld)

theorem forget {blocks : List (Nat × Nat)} (queues : Queues count state free fifo)
    (fewer : blocks.Sublist state.blocks) : Queues count { state with blocks } free fifo :=
  .of_rings (queues.sound.forget fewer) (queues.rings.forget fewer)

/-- A page leaves the queue. -/
theorem dequeue {front back : List Nat}
    (queues : Queues count state free (front ++ page :: back)) :
    Queues count
      { area := { state.area with nodes := listDelete state.area.nodes (.page page) }
        blocks := (page, 1) :: state.blocks } free (front ++ back) := by
  have rings := queues.rings.dequeue
  refine .of_rings ?_ rings
  exact (queues.sound.withNodes rings.ring).hold (queues.bounded page (by simp))
    (queues.apart page (by simp)) (queues.unheld page (by simp))

/-- A page that was handed out joins the queue as its last. -/
theorem enqueue {area : FreeArea} {blocks : List (Nat × Nat)}
    (queues : Queues count { area, blocks := (page, 1) :: blocks } free fifo) :
    Queues count
      { area := { area with nodes := listInsertBefore area.nodes .vmFifo (.page page) }
        blocks } free (fifo ++ [page]) := by
  have rings := queues.rings.enqueue
  have fewer := queues.sound.forget (List.sublist_cons_self (page, 1) blocks)
  exact .of_rings (fewer.withNodes rings.ring) rings

end Queues

/-- What is known of the two lists under a treatment of the pointers, and of the calls of
`alloc_page` that keep it. -/
class Keeper [Aliases] where
  InOrder : Nat → PageState → List Nat → List Nat → Prop
  Takes : FreeArea → Nat → Prop
  takes_one : ∀ {area : FreeArea}, Takes area 1
  of_queues : ∀ {count : Nat} {state : PageState} {free fifo : List Nat},
    Queues count state free fifo → InOrder count state free fifo
  rings : ∀ {count : Nat} {state : PageState} {free fifo : List Nat},
    InOrder count state free fifo → Rings count state free fifo
  alloc : ∀ {count n : Nat} {state : PageState} {free fifo : List Nat},
    InOrder count state free fifo → 0 < n → Takes state.area n →
    state.area.allocPage (count + 1) n = some (none, state.area) ∨
      ∃ page rest area, free = List.range' page n ++ rest ∧
        state.area.allocPage (count + 1) n = some (some page, area) ∧
        InOrder count { area, blocks := (page, n) :: state.blocks } rest fifo
  giveBack : ∀ {count n : Nat} {page : PagePtr} {state : PageState} {free fifo : List Nat},
    InOrder count state free fifo → (page.page, n) ∈ state.blocks →
    ∃ area listed, Aliases.freePage (count + 1) state.area page n = some area ∧
      InOrder count { area, blocks := state.blocks.erase (page.page, n) } listed fifo ∧
      ∀ q, q ∈ listed ↔ free ≠ [] ∧ (q ∈ free ∨ InBlock (page.page, n) q)
  hold : ∀ {count page : Nat} {state : PageState} {free fifo : List Nat},
    InOrder count state free fifo → page < count → page ∉ free → page ∉ fifo →
    (∀ block ∈ state.blocks, ¬ InBlock block page) →
    InOrder count { state with blocks := (page, 1) :: state.blocks } free fifo
  forget : ∀ {count : Nat} {state : PageState} {free fifo : List Nat} {blocks : List (Nat × Nat)},
    InOrder count state free fifo → blocks.Sublist state.blocks →
    InOrder count { state with blocks } free fifo
  dequeue : ∀ {count page : Nat} {state : PageState} {free front back : List Nat},
    InOrder count state free (front ++ page :: back) →
    InOrder count
      { area := { state.area with nodes := listDelete state.area.nodes (.page page) }
        blocks := (page, 1) :: state.blocks } free (front ++ back)
  enqueue : ∀ {count page : Nat} {area : FreeArea} {blocks : List (Nat × Nat)}
    {free fifo : List Nat},
    InOrder count { area, blocks := (page, 1) :: blocks } free fifo →
    InOrder count
      { area := { area with nodes := listInsertBefore area.nodes .vmFifo (.page page) }
        blocks } free (fifo ++ [page])

/-- With the pointers taken as one the free list stays sorted, and no call of `alloc_page`
does harm. -/
instance sortedKeeper : Keeper where
  InOrder := Queues
  Takes _ _ := True
  takes_one := trivial
  of_queues := id
  rings := Queues.rings
  alloc queues positive _ := queues.alloc positive
  giveBack := Queues.giveBack
  hold := Queues.hold
  forget := Queues.forget
  dequeue := Queues.dequeue
  enqueue := Queues.enqueue

/-- However the pointers compare, the lists are rings as long as the pages that `alloc_page`
unlinks are those of the block that it hands out. -/
@[reducible] def ringKeeper [Aliases] : Keeper where
  InOrder := Rings
  Takes := Consecutive
  takes_one := consecutive_one
  of_queues := Queues.rings
  rings := id
  alloc := Rings.alloc
  giveBack := Rings.giveBack
  hold := Rings.hold
  forget := Rings.forget
  dequeue := Rings.dequeue
  enqueue := Rings.enqueue

end PageState

end WindOs.Mm
