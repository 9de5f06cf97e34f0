import WindOs.Mm.PageLists

namespace WindOs.Mm

open Data

/-! # The replacement of pages

A queued page may stand anywhere in the address space.  What its eviction needs is
that the entry of its address is found, and that no table is among the pages that
are handed out.
-/

namespace Paging

open VmState PageState

variable {pg after : Paging} {blocks : List (Nat × Nat)} {free fifo front back : List Nat}
  {frame i n p q u v w : Nat}

/-- The free list and the queue, apart from the directory and its tables. -/
structure Resident (pg : Paging) (blocks : List (Nat × Nat)) (free fifo : List Nat) : Prop where
  notDirectory : ∀ i < 1024, pg.HasTable i → pg.table i ≠ pg.pde
  queues : Queues pg.count { area := pg.area, blocks } free fifo
  reserved : ∀ p, p ∈ free ∨ p ∈ fifo → pg.NotTable (pg.base + p)
  backed : ∀ p ∈ fifo, pg.va (pg.base + p) < 2 ^ 32 ∧ pg.HasTable (pg.va (pg.base + p) / 2 ^ 22)
  room : pg.base + pg.count ≤ 2 ^ 20

/-- The table and the index of the entry for the address of a queued page. -/
def slot (pg : Paging) (p : Nat) : Nat × Nat :=
  (pg.table (pg.va (pg.base + p) / 2 ^ 22), pg.va (pg.base + p) / 2 ^ 12 % 2 ^ 10)

/-- The entry in the state after the eviction of a page, with the two lists as they are then. -/
def evicted (pg : Paging) (p : Nat) (area : FreeArea) : Paging :=
  { pg.writeOut (pg.base + p) (pg.slot p).1 (pg.slot p).2 with area }

namespace Resident

theorem slot_table (resident : pg.Resident blocks free fifo) (queued : p ∈ fifo) :
    pg.lookupPte pg.pde (pg.va (pg.base + p)) = some (pg.slot p) ∧ (pg.slot p).1 ≠ pg.pde := by
  obtain ⟨small, has⟩ := resident.backed p queued
  exact ⟨if_pos has, resident.notDirectory _ (by omega) has⟩

/-- An eviction writes one word. -/
theorem evicted_entry {area : FreeArea} (resident : pg.Resident blocks free fifo) (queued : p ∈ fifo) :
    (pg.evicted p area).entry frame i = if pg.slot p = (frame, i) then
      slotWord (pg.va (pg.base + p) / pageSize) else pg.entry frame i := by
  have small := (resident.backed p queued).1
  by_cases here : pg.slot p = (frame, i)
  · rw [if_pos here, evicted, here]
    exact writeOut_entry small
  · rw [if_neg here]
    by_cases table : frame = (pg.slot p).1
    · have index : i ≠ (pg.slot p).2 := by
        intro same
        apply here
        rw [table, same]
      rw [table]
      exact entry_setEntry_of_index index
    · exact entry_setEntry_of_frame table

theorem evicted_settled {area : FreeArea} (resident : pg.Resident blocks free fifo) (queued : p ∈ fifo) :
    Settled pg (pg.evicted p area) := by
  have different := (resident.slot_table queued).2
  have absent : ¬ Entry.Present (2 ^ 8 * (pg.va (pg.base + p) / pageSize + 1) % 2 ^ 32) := by
    rw [Entry.present_iff]
    omega
  have narrow : 2 ^ 8 * (pg.va (pg.base + p) / pageSize + 1) % 2 ^ 32 < 2 ^ 32 :=
    Nat.mod_lt _ (by decide)
  refine ⟨⟨rfl, rfl, rfl, memory_setEntry_of_ne different.symm⟩, ?_⟩
  intro v before
  have word : (pg.evicted p area).pte v = _ :=
    (pte_of_memory rfl rfl).trans (@pte_setEntry_slot pg _ (pg.slot p).2 v _ different narrow)
  rw [word]
  split
  · exact absent
  · exact before

/-- A queued page is evicted. -/
theorem evict (resident : pg.Resident blocks free (front ++ p :: back)) :
    ∃ area listed, pg.evict (pg.base + p) = .ok (pg.evicted p area) ∧
      (pg.evicted p area).Resident blocks listed (front ++ back) := by
  have queued : p ∈ front ++ p :: back := by simp
  obtain ⟨area, listed, done, given, members, -⟩ :=
    evict_slot resident.queues (resident.slot_table queued).1
  have settled := @evicted_settled _ _ _ _ _ area resident queued
  have others : ∀ q ∈ front ++ back, q ∈ front ++ p :: back := by
    intro q member
    simp only [List.mem_append, List.mem_cons] at member ⊢
    tauto
  refine ⟨area, listed, done, ?_, given, ?_, ?_, resident.room⟩
  · intro i small has
    rw [settled.tables.2]
    exact resident.notDirectory i small (settled.tables.1.mp has)
  · intro q member
    rw [settled.notTable]
    apply resident.reserved
    cases member with
    | inl inList =>
        cases ((members q).mp inList).2 with
        | inl before => exact .inl before
        | inr same => exact .inr (same ▸ queued)
    | inr inFifo => exact .inr (others q inFifo)
  · intro q member
    obtain ⟨small, has⟩ := resident.backed q (others q member)
    exact ⟨small, settled.tables.1.mpr has⟩

/-- `alloc_page(1)` takes a free page, and the first of the queue may go. -/
theorem allocPage (resident : pg.Resident blocks free fifo)
    (done : pg.allocPage 1 = .ok (some frame, after)) :
    ∃ p free fifo, frame = after.base + p ∧ after.Resident ((p, 1) :: blocks) free fifo ∧
      Settled pg after ∧ after.NotTable frame := by
  rcases resident.queues.alloc Nat.one_pos with refused | ⟨p, left, area, whole, served, queues⟩
  · rw [allocPage_refused refused] at done
    cases done
  · have taken : { pg with area }.Resident ((p, 1) :: blocks) left fifo := by
      refine ⟨resident.notDirectory, queues, ?_, resident.backed, resident.room⟩
      intro q member
      apply resident.reserved
      rw [whole, List.mem_append]
      exact member.imp_left .inr
    have plain : pg.NotTable (pg.base + p) := resident.reserved p (.inl (by simp [whole]))
    have settled : Settled pg { pg with area } := .of_memory rfl rfl rfl rfl
    rw [allocPage_served served] at done
    obtain ⟨swapped, swap, ended⟩ := ok_of_bind done
    cases ended
    split at swap
    · rcases swapOut_one queues.ring swap with ⟨-, same⟩ | ⟨q, rest, rfl, evicted⟩
      · subst same
        exact ⟨p, left, fifo, rfl, taken, settled, plain⟩
      · obtain ⟨more, listed, evictedAgain, kept⟩ :=
          @evict { pg with area } ((p, 1) :: blocks) left [] rest q taken
        rw [evictedAgain] at evicted
        cases evicted
        have settledAgain := settled.trans
          (@evicted_settled { pg with area } _ _ _ q more taken List.mem_cons_self)
        exact ⟨p, listed, rest, rfl, kept, settledAgain, settledAgain.notTable.mpr plain⟩
    · cases swap
      exact ⟨p, left, fifo, rfl, taken, settled, plain⟩

/-- A page that is handed out is one of the pool. -/
theorem narrow (resident : pg.Resident ((p, 1) :: blocks) free fifo) : pg.base + p < 2 ^ 20 := by
  have self : InBlock (p, 1) p := ⟨Nat.le_refl _, Nat.lt_succ_self _⟩
  have below := (resident.queues.sound.outside (p, 1) (by simp) p self).2
  have room := resident.room
  omega

/-- The page becomes a table. -/
theorem newTable (resident : pg.Resident ((p, 1) :: blocks) free fifo)
    (plain : pg.NotTable (pg.base + p)) (missing : ¬ pg.HasTable i) (small : i < 1024) :
    (pg.newTable pg.pde i (pg.base + p)).Resident blocks free fifo := by
  have narrow := resident.narrow
  have self := @newTable_entry pg (pg.base + p) i plain.1 narrow
  have others := fun j elsewhere => @newTable_other pg (pg.base + p) i j plain.1 elsewhere
  have inside : InBlock (p, 1) p := ⟨Nat.le_refl _, Nat.lt_succ_self _⟩
  refine ⟨?_, resident.queues.forget (List.sublist_cons_self _ _), ?_, ?_, resident.room⟩
  · intro j below has
    by_cases here : j = i
    · rw [here, self.2]
      exact plain.1
    · rw [(others j here).2]
      exact resident.notDirectory j below ((others j here).1.mp has)
  · intro q member
    have different : q ≠ p := by
      rintro rfl
      cases member with
      | inl inFree => exact (resident.queues.sound.outside (q, 1) (by simp) q inside).1 inFree
      | inr inFifo => exact resident.queues.unheld q inFifo (q, 1) (by simp) inside
    refine (Mapping.newTable_notTable plain narrow missing small).mpr ⟨?_, resident.reserved q member⟩
    show pg.base + q ≠ pg.base + p
    omega
  · intro q queued
    obtain ⟨below, has⟩ := resident.backed q queued
    refine ⟨below, ?_⟩
    by_cases here : pg.va (pg.base + q) / 2 ^ 22 = i
    · exact absurd (here ▸ has) missing
    · exact (others _ here).1.mpr has

end Resident

/-- The nodes that a run of `swap_out(mm, n)` evicts, in their order. -/
def evictions (pg : Paging) (n : Nat) : List PageNode :=
  (trace swapOutRound (n + 1) (.vmFifo, n, pg)).map fun (begin, _, pg) => pg.area.nodes.next begin

/-- The word that `swap_out` has left in an entry, if it is that of one of the pages. -/
def MarksOnly (pg after : Paging) (pages : List Nat) : Prop :=
  ∀ frame i, (∀ p ∈ pages, pg.slot p = (frame, i) →
      after.entry frame i = slotWord (pg.va (pg.base + p) / pageSize)) ∧
    ((∀ p ∈ pages, pg.slot p ≠ (frame, i)) → after.entry frame i = pg.entry frame i)

/-- `swap_out(mm, n)` evicts the first `n` pages of the queue and leaves the rest. -/
def SwapsOutOldest (pg : Paging) (fifo : List Nat) (n : Nat) : Prop :=
  pg.evictions n = (fifo.take n).map .page ∧
    ∃ after, pg.swapOut n = .ok after ∧ pg.MarksOnly after (fifo.take n) ∧
      after.area.nodes.IsRing .vmFifo ((fifo.drop n).map .page)

theorem swapOutRound_next {begin : PageNode} (next : pg.area.nodes.next begin = .page p)
    (done : pg.evict (pg.base + p) = .ok after) :
    swapOutRound (begin, n + 1, pg) = .inl (after.area.nodes.next begin, n, after) := by
  simp only [swapOutRound, next, done, attempt]

theorem swapOutRound_end {begin : PageNode}
    (ended : n = 0 ∨ pg.area.nodes.next begin = .vmFifo) :
    swapOutRound (begin, n, pg) = .inr (.ok pg) := by
  cases ended with
  | inl none =>
      subst none
      cases node : pg.area.nodes.next begin <;> simp only [swapOutRound, node]
  | inr last => simp only [swapOutRound, last]

theorem swapsOutOldest_none (resident : pg.Resident blocks free fifo) (idle : n = 0 ∨ fifo = []) :
    pg.SwapsOutOldest fifo n := by
  have round : swapOutRound (.vmFifo, n, pg) = .inr (.ok pg) := by
    apply swapOutRound_end
    cases idle with
    | inl none => exact .inl none
    | inr empty =>
        right
        rw [resident.queues.ring.next_head, empty]
        rfl
  have unchosen : fifo.take n = [] := by
    cases idle with
    | inl none => simp [none]
    | inr empty => simp [empty]
  have whole : fifo.drop n = fifo := by
    cases idle with
    | inl none => simp [none]
    | inr empty => simp [empty]
  refine ⟨by rw [evictions, trace_exit round, unchosen]; rfl, pg, ?_, ?_, ?_⟩
  · rw [Paging.swapOut, loop_exit round]
    rfl
  · intro frame i
    rw [unchosen]
    exact ⟨by simp, fun _ => rfl⟩
  · rw [whole]
    exact resident.queues.ring

/-- One page goes, and nothing is behind it or no more is asked for. -/
theorem swapsOutOldest_one (resident : pg.Resident blocks free (p :: back)) (few : n = 0 ∨ back = []) :
    pg.SwapsOutOldest (p :: back) (n + 1) := by
  have queued : p ∈ p :: back := List.mem_cons_self
  obtain ⟨area, listed, done, kept⟩ := @Resident.evict pg blocks free [] back p resident
  have first : pg.area.nodes.next .vmFifo = .page p := resident.queues.ring.next_head
  have round := swapOutRound_next (n := n) first done
  have ended : swapOutRound ((pg.evicted p area).area.nodes.next .vmFifo, n, pg.evicted p area) =
      .inr (.ok (pg.evicted p area)) := by
    apply swapOutRound_end
    cases few with
    | inl none => exact .inl none
    | inr empty =>
        have ring := kept.queues.ring
        rw [empty] at ring
        have alone : (pg.evicted p area).area.nodes.next .vmFifo = .vmFifo := ring.next_head
        right
        rw [alone, alone]
  have chosen : (p :: back).take (n + 1) = [p] := by
    cases few with
    | inl none => simp [none]
    | inr empty => simp [empty]
  have rest : (p :: back).drop (n + 1) = back := by
    cases few with
    | inl none => simp [none]
    | inr empty => simp [empty]
  refine ⟨?_, pg.evicted p area, ?_, ?_, ?_⟩
  · rw [evictions, trace_next round, trace_exit ended, chosen]
    simp [first]
  · rw [Paging.swapOut, loop_next round, loop_exit ended]
    rfl
  · intro frame i
    rw [chosen, resident.evicted_entry queued]
    simp only [List.mem_singleton, forall_eq]
    exact ⟨fun here => if_pos here, fun elsewhere => if_neg elsewhere⟩
  · rw [rest]
    exact kept.queues.ring

/-- The second round looks behind the second page. -/
theorem evictions_second (resident : pg.Resident blocks free (p :: q :: back)) :
    (pg.evictions (n + 2))[1]? ≠ some (.page q) := by
  obtain ⟨area, listed, done, kept⟩ := @Resident.evict pg blocks free [] (q :: back) p resident
  have first : pg.area.nodes.next .vmFifo = .page p := resident.queues.ring.next_head
  have round := swapOutRound_next (n := n + 1) first done
  have ring : (pg.evicted p area).area.nodes.IsRing .vmFifo ([] ++ .page q :: back.map .page) :=
    kept.queues.ring
  have begin : (pg.evicted p area).area.nodes.next .vmFifo = .page q := ring.next_head
  have behind := ring.next_member
  rw [begin] at round
  cases back with
  | nil =>
      rw [evictions, trace_next round, trace_exit (swapOutRound_end (.inr behind))]
      simp
  | cons r back =>
      obtain ⟨more, -, doneAgain, -⟩ := @Resident.evict (pg.evicted p area) blocks listed [q] back r kept
      have again := swapOutRound_next (n := n) behind doneAgain
      have different : r ≠ q := by
        have nodup := (List.nodup_cons.mp ring.nodup).2
        simp at nodup
        tauto
      rw [evictions, trace_next round, trace_next again]
      simp [behind, different]

/-- The cursor of `swap_out` steps over a page whenever it has evicted one, so what it
evicts is the oldest only as long as that makes no difference. -/
theorem oldest_evicted_alone (resident : pg.Resident blocks free fifo) :
    pg.SwapsOutOldest fifo n ↔ n ≤ 1 ∨ fifo.length ≤ 1 := by
  constructor
  · rintro ⟨order, -⟩
    by_contra many
    rcases fifo with - | ⟨p, - | ⟨q, back⟩⟩
    · simp at many
    · simp at many
    · obtain ⟨m, rfl⟩ : ∃ m, n = m + 2 := ⟨n - 2, by omega⟩
      apply evictions_second (n := m) resident
      rw [order]
      rfl
  · intro few
    cases n with
    | zero => exact swapsOutOldest_none resident (.inl rfl)
    | succ n =>
        cases fifo with
        | nil => exact swapsOutOldest_none resident (.inr rfl)
        | cons p back =>
            apply swapsOutOldest_one resident
            simp only [List.length_cons] at few
            cases few with
            | inl one => exact .inl (by omega)
            | inr short => exact .inr (List.length_eq_zero_iff.mp (by omega))

/-- Two of four pages are queued, for the addresses `0x1000` and `0x2000`. -/
def lowPages : Paging :=
  { fourFrames.pg with
    memory := fun frame =>
      if frame = 1 then Bytes.zero.setWord 0 0x2007
      else if frame = 2 then (Bytes.zero.setWord 1 0x10007).setWord 2 0x11007
      else Bytes.zero
    va := fun frame => if frame = 16 then 0x1000 else if frame = 17 then 0x2000 else 0
    area :=
      { nodes :=
          { next := fun
              | .head => .page 2
              | .vmFifo => .page 0
              | .page 0 => .page 1
              | .page 1 => .vmFifo
              | .page 2 => .page 3
              | .page _ => .head
            prev := fun
              | .head => .page 3
              | .vmFifo => .page 1
              | .page 0 => .vmFifo
              | .page 1 => .page 0
              | .page 2 => .head
              | .page _ => .page 2 }
        freePages := fun p => if p = 2 then 2 else 0
        flags := fun _ => 0
        freePageNum := 2 }
    mm := VmaList.oneVma { vmmStart := 0x1000, vmmEnd := 0x4000, flags := 7 } }

theorem lowPages_table {i : Nat} (has : lowPages.HasTable i) : lowPages.table i = 2 := by
  by_cases first : i = 0
  · subst first
    decide
  · have zero : lowPages.entry lowPages.pde i = 0 :=
      (Bytes.word_setWord_of_ne first).trans Bytes.word_zero
    rw [HasTable, zero] at has
    exact absurd has Entry.not_present_zero

theorem lowPages_resident : lowPages.Resident [] [2, 3] [0, 1] where
  notDirectory i _ has := by
    rw [lowPages_table has]
    decide
  queues :=
    { sound :=
        { ring := ⟨by decide, ⟨rfl, rfl⟩, ⟨rfl, rfl⟩, rfl, rfl⟩
          sorted := by decide
          bounded := by decide
          num := rfl
          headed := ⟨by decide, by decide, trivial⟩
          last := by decide
          nonempty := by decide
          outside := by simp
          interior := by simp
          disjoint := .nil }
      ring := ⟨by decide, ⟨rfl, rfl⟩, ⟨rfl, rfl⟩, rfl, rfl⟩
      bounded := by decide
      apart := by decide
      unheld := by simp }
  reserved p _ := by
    have base : lowPages.base = 16 := rfl
    have directory : lowPages.pde = 1 := rfl
    constructor
    · omega
    · intro i _ has
      rw [lowPages_table has]
      omega
  backed := by decide +kernel
  room := by decide

/-- The first of the two pages. -/
theorem oldest_evicted_alone_first : lowPages.SwapsOutOldest [0, 1] 1 :=
  (oldest_evicted_alone lowPages_resident).mpr (.inl (by decide))

/-- Both are asked for, but the cursor is on the second when the first has gone. -/
theorem second_page_stepped_over :
    lowPages.Resident [] [2, 3] [0, 1] ∧ lowPages.evictions 2 = [.page 0] ∧
      ¬ lowPages.SwapsOutOldest [0, 1] 2 := by
  have alone : lowPages.evictions 2 = [.page 0] := by decide +kernel
  refine ⟨lowPages_resident, alone, ?_⟩
  rintro ⟨order, -⟩
  rw [alone] at order
  cases order

end Paging

end WindOs.Mm
