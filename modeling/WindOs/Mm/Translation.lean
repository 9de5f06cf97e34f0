import WindOs.Mm.PageRefs

namespace WindOs.Mm

open Data

/-! # What `map` changes

A directory whose tables are all different, over the whole address space.  `map` writes
one entry.  To replace a page it calls `unmap` with the kernel's address of the old page,
and so takes the kernel's own mapping of it away.
-/

namespace Paging

open VmState PageState

variable {pg after : Paging} {blocks : List (Nat × Nat)} {free : List Nat}
  {frame i p q u v w la page sign : Nat}

/-- All tables are different. -/
structure Tables (pg : Paging) : Prop where
  notDirectory : ∀ i < 1024, pg.HasTable i → pg.table i ≠ pg.pde
  apart : ∀ i < 1024, ∀ j < 1024, pg.HasTable i → pg.HasTable j → pg.table i = pg.table j → i = j

/-- Moreover the kernel finds every page of the pool at its place, and what is free is
not in use as a table. -/
structure Directory (pg : Paging) (blocks : List (Nat × Nat)) (free : List Nat) : Prop
    extends Tables pg where
  direct : ∀ p < pg.count, Entry.Present (pg.pte (directPage (pg.base + p))) ∧
    Entry.addr (pg.pte (directPage (pg.base + p))) = pg.base + p
  room : pg.base + pg.count ≤ 2 ^ 18
  sound : PageState.Sound pg.count { area := pg.area, blocks } free
  plain : ∀ p ∈ free, pg.NotTable (pg.base + p)

/-- The walk at `la` leads to the page, and at every other page to where it led before. -/
def MapsOnly (pg : Paging) (la page sign : Nat) : Prop :=
  ∃ after, pg.map allocOne pg.pde la page sign = .ok after ∧
    Entry.addr (after.pte (la / pageSize)) = page ∧
    Entry.sign (after.pte (la / pageSize)) = sign ∧
    ∀ u < 2 ^ 20, u ≠ la / pageSize → after.pte u = pg.pte u

/-- `alloc_page(1)` finds a page. -/
def Available (pg : Paging) : Prop :=
  ∃ p, pg.area.nodes.next .head = .page p ∧ 1 ≤ pg.area.freePages p

/-- No page is evicted in the call. -/
def Undisturbed (pg : Paging) (v : Nat) : Prop :=
  pg.HasTable (v / 2 ^ 10) ∨ pg.isVmmInited = false ∨ pg.area.nodes.next .vmFifo = .vmFifo

namespace Tables

/-- A write to the entry of one page changes the entry of no other. -/
theorem pte_setEntry {middle : Paging} (tables : pg.Tables)
    (same : SameTables pg middle) (smallV : v < 2 ^ 20) (has : pg.HasTable (v / 2 ^ 10))
    (small : w < 2 ^ 32) (smallU : u < 2 ^ 20) :
    (middle.setEntry (pg.table (v / 2 ^ 10)) (v % 2 ^ 10) w).pte u =
      if u = v then w else middle.pte u := by
  have notDirectory : pg.table (v / 2 ^ 10) ≠ middle.pde := by
    rw [same.pde]
    exact tables.notDirectory _ (by omega) has
  rw [pte_setEntry_slot notDirectory small]
  by_cases equal : u = v
  · rw [if_pos equal, if_pos]
    rw [equal]
    exact ⟨same.tables.1.mpr has, same.tables.2, rfl⟩
  · rw [if_neg equal, if_neg]
    rintro ⟨hasU, table, offset⟩
    rw [same.tables.2] at table
    have equalTables := tables.apart _ (by omega) _ (by omega) (same.tables.1.mp hasU) has table
    omega

/-- The last write of `map`. -/
theorem mapped_pte {middle : Paging} (tables : pg.Tables)
    (same : SameTables pg middle) (small : v < 2 ^ 20) (has : pg.HasTable (v / 2 ^ 10))
    (entry : Nat) (smallU : u < 2 ^ 20) :
    ((middle.setEntry (pg.table (v / 2 ^ 10)) (v % 2 ^ 10)
      (Entry.mapped entry page sign)).invlpg la).pte u =
      if u = v then Entry.mapped entry page sign else middle.pte u :=
  (pte_of_memory rfl rfl).trans (tables.pte_setEntry same small has Entry.set_lt smallU)

/-- It is all that has to be looked at when everything before it is as it was. -/
theorem mapsOnly_of_mapped {middle : Paging} (tables : pg.Tables)
    (same : SameTables pg middle) (small : v < 2 ^ 20) (has : pg.HasTable (v / 2 ^ 10))
    (here : la / 2 ^ 12 = v) (narrow : page < 2 ^ 20) (byte : sign < 2 ^ 8) (entry : Nat)
    (words : ∀ u < 2 ^ 20, u ≠ v → middle.pte u = pg.pte u)
    (done : pg.map allocOne pg.pde la page sign = .ok ((middle.setEntry (pg.table (v / 2 ^ 10))
      (v % 2 ^ 10) (Entry.mapped entry page sign)).invlpg la)) : pg.MapsOnly la page sign := by
  have number : la / pageSize = v := here
  refine ⟨_, done, ?_⟩
  rw [number, tables.mapped_pte same small has entry small, if_pos rfl]
  refine ⟨Entry.addr_set narrow, ?_, ?_⟩
  · simp only [Entry.mapped, Entry.sign, Entry.setAddr, Entry.setSign]
    omega
  · intro u smallU other
    rw [tables.mapped_pte same small has entry smallU, if_neg other]
    exact words u smallU other

/-- The call with a table in place, when the entry is free or maps the page already. -/
theorem mapsOnly_kept (tables : pg.Tables) (small : v < 2 ^ 20)
    (here : la / 2 ^ 12 = v) (has : pg.HasTable (v / 2 ^ 10)) (narrow : page < 2 ^ 20)
    (byte : sign < 2 ^ 8) (kept : ¬ Entry.Present (pg.pte v) ∨ Entry.addr (pg.pte v) = page) :
    pg.MapsOnly la page sign := by
  by_cases present : Entry.Present (pg.pte v)
  · have same := kept.resolve_left (fun absent => absent present)
    have done := (@map_present pg v la page sign _ allocOne has here present).trans (if_pos same)
    exact tables.mapsOnly_of_mapped ⟨rfl, rfl, rfl, rfl⟩ small has here narrow byte _
      (fun _ _ _ => rfl) done
  · let counted := { pg with ref := Function.update pg.ref page (pg.ref page + 1) }
    have same : SameTables pg counted := ⟨rfl, rfl, rfl, rfl⟩
    exact tables.mapsOnly_of_mapped same small has here narrow byte (pg.pte v)
      (fun _ _ _ => pte_of_memory rfl rfl) (map_absent has here present)

theorem newTable (tables : pg.Tables) (notTable : pg.NotTable frame) (narrow : frame < 2 ^ 20) :
    (pg.newTable pg.pde i frame).Tables := by
  have self := @newTable_entry pg frame i notTable.1 narrow
  have others := fun j elsewhere => @newTable_other pg frame i j notTable.1 elsewhere
  constructor
  · intro j small has
    by_cases here : j = i
    · rw [here, self.2]
      exact notTable.1
    · rw [(others j here).2]
      exact tables.notDirectory j small ((others j here).1.mp has)
  · intro j smallJ k smallK hasJ hasK same
    by_cases hereJ : j = i
    · by_cases hereK : k = i
      · rw [hereJ, hereK]
      · rw [hereJ, self.2, (others k hereK).2] at same
        exact absurd same.symm (notTable.2 k smallK ((others k hereK).1.mp hasK))
    · by_cases hereK : k = i
      · rw [hereK, self.2, (others j hereJ).2] at same
        exact absurd same (notTable.2 j smallJ ((others j hereJ).1.mp hasJ))
      · rw [(others j hereJ).2, (others k hereK).2] at same
        exact tables.apart j smallJ k smallK ((others j hereJ).1.mp hasJ) ((others k hereK).1.mp hasK)
          same

end Tables

/-- The allocator serves one page exactly if it finds one. -/
theorem alloc_one (sound : PageState.Sound pg.count { area := pg.area, blocks } free) :
    (¬ pg.Available ∧ pg.area.allocPage (pg.count + 1) 1 = some (none, pg.area)) ∨
      ∃ p area, pg.Available ∧ p ∈ free ∧ pg.area.allocPage (pg.count + 1) 1 = some (some p, area) ∧
        area.nodes.next .vmFifo = pg.area.nodes.next .vmFifo := by
  have ring := sound.ring
  have search := FreeArea.search_first (n := 1) ring
    (show free.length < pg.count + 1 from Nat.lt_succ_of_le sound.length_le)
  rcases sound.alloc Nat.one_pos with refused |
      ⟨p, rest, area, whole, served, -, large, -, agree⟩
  · refine .inl ⟨?_, refused⟩
    rintro ⟨p, first, large⟩
    cases free with
    | nil =>
        rw [ring.next_head] at first
        cases first
    | cons q rest =>
        have equal : q = p := by
          rw [ring.next_head] at first
          exact PageNode.page.inj first
        have few : ¬ 1 > pg.area.freePageNum := by
          rw [sound.num]
          simp
        rw [← equal] at large
        change pg.area.allocPage (pg.count + 1) 1 = some (none, pg.area) at refused
        rw [FreeArea.allocPage, if_neg few, search] at refused
        simp only [if_pos large, Option.map_some] at refused
        cases refused
  · right
    have first : pg.area.nodes.next .head = .page p := by
      rw [ring.next_head, whole]
      rfl
    refine ⟨p, area, ⟨p, first, large⟩, ?_, served, (Counted.queue_agreeOff agree).2⟩
    rw [whole]
    simp [List.range']

namespace Directory

theorem dropRef_returns (directory : pg.Directory blocks free) :
    ∃ after, pg.dropRef page = .ok after := by
  have free_returns : ∀ q, ∃ area, pg.area.freePage (pg.count + 1) q 1 = some area := by
    intro q
    rw [FreeArea.freePage, loop_walk_ring directory.sound.ring none
      (by simpa using Nat.lt_succ_of_le directory.sound.length_le)]
    exact ⟨_, rfl⟩
  have counted : Function.update pg.ref page (pg.ref page - 1) page = pg.ref page - 1 :=
    Function.update_self _ _ _
  unfold dropRef
  simp only [counted]
  split
  · obtain ⟨area, freed⟩ := free_returns (page - pg.base)
    exact ⟨_, freePage_ok freed⟩
  · exact ⟨_, rfl⟩

/-- The replacement of another page clears the kernel's entry for it on the way. -/
theorem map_other (directory : pg.Directory blocks free) (here : la / 2 ^ 12 = v)
    (present : Entry.Present (pg.pte v)) (below : q < pg.count)
    (address : Entry.addr (pg.pte v) = pg.base + q) (other : pg.base + q ≠ page) :
    ∃ middle : Paging, SameTables pg middle ∧
      (∀ u < 2 ^ 20, middle.pte u = if u = directPage (pg.base + q) then
        Entry.cleared (pg.pte (directPage (pg.base + q))) else pg.pte u) ∧
      pg.map allocOne pg.pde la page sign = .ok ((middle.setEntry (pg.table (v / 2 ^ 10))
        (v % 2 ^ 10) (Entry.mapped (middle.entry (pg.table (v / 2 ^ 10)) (v % 2 ^ 10)) page
          sign)).invlpg la) := by
  have room := directory.room
  have inside : directPage (pg.base + q) < 2 ^ 20 := by
    simp only [directPage]
    omega
  have directLa : Entry.getPgAddrLa (pg.pte v) / 2 ^ 12 = directPage (pg.base + q) := by
    simp only [Entry.getPgAddrLa, address, pageSize, vertualMem, directPage]
    omega
  let counted := { pg with ref := Function.update pg.ref page (pg.ref page + 1) }
  have directoryCounted : counted.Directory blocks free :=
    ⟨⟨directory.notDirectory, directory.apart⟩, directory.direct, directory.room, directory.sound,
      directory.plain⟩
  have presentDirect : Entry.Present (counted.pte (directPage (pg.base + q))) :=
    (directory.direct q below).1
  have has := hasTable_of_present presentDirect
  obtain ⟨dropped, drop⟩ := @dropRef_returns counted blocks free
    (Entry.addr (counted.pte (directPage (pg.base + q)))) directoryCounted
  have done := (@map_present pg v la page sign _ allocOne (hasTable_of_present present) here
    present).trans (if_neg (by rw [address]; exact other))
  have unmaps := unmap_present directLa presentDirect
  rw [drop] at unmaps
  obtain ⟨area, rfl, -⟩ := dropRef_ok drop
  rw [unmaps] at done
  refine ⟨_, ?_, ?_, done⟩
  · exact ⟨rfl, rfl, rfl, memory_setEntry_of_ne
      (directory.notDirectory _ (by omega) has).symm⟩
  · intro u small
    have same : SameTables pg pg := ⟨rfl, rfl, rfl, rfl⟩
    have word := directory.toTables.pte_setEntry same inside has
      (@Entry.cleared_lt (pg.pte (directPage (pg.base + q)))) small
    exact (pte_of_memory rfl rfl).trans word

/-- The call replaces the page at the place where the kernel has it. -/
theorem mapsOnly_direct (directory : pg.Directory blocks free) (small : v < 2 ^ 20)
    (here : la / 2 ^ 12 = v) (narrow : page < 2 ^ 20) (byte : sign < 2 ^ 8)
    (present : Entry.Present (pg.pte v)) (below : q < pg.count)
    (address : Entry.addr (pg.pte v) = pg.base + q) (other : pg.base + q ≠ page)
    (own : directPage (pg.base + q) = v) : pg.MapsOnly la page sign := by
  obtain ⟨middle, same, words, done⟩ := directory.map_other here present below address other
  refine directory.mapsOnly_of_mapped same small (hasTable_of_present present) here narrow byte _ ?_ done
  intro u smallU different
  rw [words u smallU, if_neg (by rw [own]; exact different)]

/-- The call replaces a page that the kernel has elsewhere. -/
theorem not_mapsOnly (directory : pg.Directory blocks free) (small : v < 2 ^ 20)
    (here : la / 2 ^ 12 = v) (present : Entry.Present (pg.pte v)) (below : q < pg.count)
    (address : Entry.addr (pg.pte v) = pg.base + q) (other : pg.base + q ≠ page)
    (elsewhere : directPage (pg.base + q) ≠ v) : ¬ pg.MapsOnly la page sign := by
  have room := directory.room
  have inside : directPage (pg.base + q) < 2 ^ 20 := by
    simp only [directPage]
    omega
  have number : la / pageSize = v := here
  obtain ⟨middle, same, words, done⟩ := directory.map_other here present below address other
  rintro ⟨after, returned, -, -, kept⟩
  have equal := Except.ok.inj (returned.symm.trans done)
  have unchanged := kept _ inside (by rw [number]; exact elsewhere)
  rw [equal, directory.mapped_pte same small (hasTable_of_present present) _ inside,
    if_neg elsewhere, words _ inside, if_pos rfl] at unchanged
  have before := (directory.direct q below).1
  rw [← unchanged] at before
  exact Entry.cleared_absent before

/-- The call makes a table. -/
theorem mapsOnly_newTable (directory : pg.Directory blocks free) (small : v < 2 ^ 20)
    (here : la / 2 ^ 12 = v) (missing : ¬ pg.HasTable (v / 2 ^ 10)) (narrow : page < 2 ^ 20)
    (byte : sign < 2 ^ 8) (undisturbed : pg.Undisturbed v) :
    pg.MapsOnly la page sign ↔ pg.Available := by
  have index : la / 2 ^ 22 = v / 2 ^ 10 := by omega
  have absent : ¬ Entry.Present (pg.entry pg.pde (v / 2 ^ 10)) := missing
  rcases alloc_one directory.sound with ⟨unavailable, refused⟩ | ⟨p, area, available, listed, served, next⟩
  · refine ⟨?_, fun available => absurd available unavailable⟩
    rintro ⟨after, returned, -⟩
    exfalso
    unfold map getPte at returned
    rw [index, if_neg absent, allocOne, allocPage_refused refused] at returned
    cases returned
  · refine ⟨fun _ => available, fun _ => ?_⟩
    let taken := { pg with area }
    have allocated : allocOne pg = .ok (some (pg.base + p), taken) := by
      rw [allocOne, allocPage_served served]
      split
      · rename_i evicts
        have quiet := (undisturbed.resolve_left missing).resolve_left (by simp [evicts.1])
        rw [swapOut_empty (next.trans quiet)]
        rfl
      · rfl
    have notTable : taken.NotTable (pg.base + p) := directory.plain p listed
    have below := directory.sound.bounded p listed
    have room := directory.room
    have frameNarrow : pg.base + p < 2 ^ 20 := by omega
    let made := taken.newTable pg.pde (v / 2 ^ 10) (pg.base + p)
    have entry := @newTable_entry taken (pg.base + p) (v / 2 ^ 10) notTable.1 frameNarrow
    have words : ∀ u < 2 ^ 20, made.pte u = pg.pte u := fun u smallU =>
      (notTable.newTable_pte directory.notDirectory frameNarrow missing smallU).trans
        (pte_of_memory rfl rfl)
    have got : pg.getPte allocOne pg.pde la = .ok (some (made.table (v / 2 ^ 10), v % 2 ^ 10), made) := by
      unfold getPte
      rw [index, if_neg absent, allocated, here]
      rfl
    have takenTables : taken.Tables := ⟨directory.notDirectory, directory.apart⟩
    have madeTables : made.Tables := takenTables.newTable notTable frameNarrow
    obtain ⟨after, done, address, signed, kept⟩ := madeTables.mapsOnly_kept small here entry.1 narrow
      byte (.inl (by rw [words v small, pte, if_neg missing]; exact Entry.not_present_zero))
    refine ⟨after, (map_of_getPte got entry.1 here rfl).trans done, address, signed, ?_⟩
    intro u smallU different
    rw [kept u smallU different, words u smallU]

end Directory

/-- `map` changes the walk at `la` alone if there is a table or a page for one, and what
it finds there is nothing, the page itself, or a page at the place where the kernel has it. -/
theorem map_one_translation (directory : pg.Directory blocks free) (inside : la < 2 ^ 32)
    (below : p < pg.count) (byte : sign < 2 ^ 8) (undisturbed : pg.Undisturbed (la / pageSize))
    (pool : Entry.Present (pg.pte (la / pageSize)) →
      ∃ q < pg.count, Entry.addr (pg.pte (la / pageSize)) = pg.base + q) :
    pg.MapsOnly la (pg.base + p) sign ↔
      (pg.HasTable (la / pageSize / 2 ^ 10) ∨ pg.Available) ∧
        (¬ Entry.Present (pg.pte (la / pageSize)) ∨
          Entry.addr (pg.pte (la / pageSize)) = pg.base + p ∨
          directPage (Entry.addr (pg.pte (la / pageSize))) = la / pageSize) := by
  have here : la / 2 ^ 12 = la / pageSize := rfl
  have small : la / pageSize < 2 ^ 20 := by
    simp only [pageSize]
    omega
  have room := directory.room
  have narrow : pg.base + p < 2 ^ 20 := by omega
  by_cases has : pg.HasTable (la / pageSize / 2 ^ 10)
  · by_cases present : Entry.Present (pg.pte (la / pageSize))
    · obtain ⟨q, belowQ, address⟩ := pool present
      by_cases same : pg.base + q = pg.base + p
      · have kept := directory.mapsOnly_kept small here has narrow byte (.inr (address.trans same))
        exact iff_of_true kept ⟨.inl has, .inr (.inl (address.trans same))⟩
      · rw [address]
        by_cases own : directPage (pg.base + q) = la / pageSize
        · have kept := directory.mapsOnly_direct small here narrow byte present belowQ address same own
          exact iff_of_true kept ⟨.inl has, .inr (.inr own)⟩
        · refine iff_of_false (directory.not_mapsOnly small here present belowQ address same own) ?_
          rintro ⟨-, absent | equal | direct⟩
          · exact absent present
          · exact same equal
          · exact own direct
    · have kept := directory.mapsOnly_kept small here has narrow byte (.inl present)
      exact iff_of_true kept ⟨.inl has, .inl present⟩
  · have absent : ¬ Entry.Present (pg.pte (la / pageSize)) := fun present =>
      has (hasTable_of_present present)
    rw [directory.mapsOnly_newTable small here has narrow byte undisturbed]
    exact ⟨fun available => ⟨.inr available, .inl absent⟩, fun both => both.1.resolve_left has⟩

/-- The pool of `fourFrames` with the kernel's table for it, and a user page. -/
def kernelMapped : Paging :=
  { fourFrames.pg with
    memory := fun frame =>
      if frame = 1 then (Bytes.zero.setWord 768 0x2003).setWord 1 0x3007
      else if frame = 2 then
        (((Bytes.zero.setWord 16 0x10003).setWord 17 0x11003).setWord 18 0x12003).setWord 19 0x13003
      else if frame = 3 then Bytes.zero.setWord 0 0x10007
      else Bytes.zero }

theorem kernelMapped_directory : kernelMapped.Directory [] (List.range' 0 4) := by
  have entries : ∀ i, kernelMapped.entry 1 i =
      if i = 1 then 0x3007 else if i = 768 then 0x2003 else 0 := by
    intro i
    show ((Bytes.zero.setWord 768 0x2003).setWord 1 0x3007).word i = _
    split
    · rename_i one
      rw [one, Bytes.word_setWord_self (by decide)]
    · rename_i other
      rw [Bytes.word_setWord_of_ne other]
      split
      · rename_i kernel
        rw [kernel, Bytes.word_setWord_self (by decide)]
      · rename_i elsewhere
        rw [Bytes.word_setWord_of_ne elsewhere, Bytes.word_zero]
  have tables : ∀ i, kernelMapped.HasTable i →
      i = 1 ∧ kernelMapped.table i = 3 ∨ i = 768 ∧ kernelMapped.table i = 2 := by
    intro i has
    change Entry.Present (kernelMapped.entry 1 i) at has
    change i = 1 ∧ Entry.addr (kernelMapped.entry 1 i) = 3 ∨
      i = 768 ∧ Entry.addr (kernelMapped.entry 1 i) = 2
    rw [entries] at has ⊢
    split at has
    · rename_i one
      exact .inl ⟨one, by rw [if_pos one]; rfl⟩
    · rename_i other
      split at has
      · rename_i kernel
        exact .inr ⟨kernel, by rw [if_neg other, if_pos kernel]; rfl⟩
      · exact absurd has Entry.not_present_zero
  refine ⟨⟨?_, ?_⟩, ?_, by decide, ?_, ?_⟩
  · intro i _ has
    show _ ≠ 1
    rcases tables i has with ⟨-, table⟩ | ⟨-, table⟩ <;> omega
  · intro i _ j _ hasI hasJ same
    rcases tables i hasI with ⟨rfl, tableI⟩ | ⟨rfl, tableI⟩ <;>
      rcases tables j hasJ with ⟨rfl, tableJ⟩ | ⟨rfl, tableJ⟩ <;> omega
  · intro p below
    have cases : p = 0 ∨ p = 1 ∨ p = 2 ∨ p = 3 := by
      have small : p < 4 := below
      omega
    rcases cases with rfl | rfl | rfl | rfl <;> decide +kernel
  · exact (PageState.Queues.init (.init { next := id, prev := id })).sound
  · intro p member
    have small : p < 4 := by simpa using member
    refine ⟨?_, ?_⟩
    · show 16 + p ≠ 1
      omega
    · intro i _ has
      show _ ≠ 16 + p
      rcases tables i has with ⟨-, table⟩ | ⟨-, table⟩ <;> omega

/-- A page is mapped behind another. -/
theorem map_one_translation_empty : kernelMapped.MapsOnly 0x401000 (kernelMapped.base + 1) 7 := by
  have absent : ¬ Entry.Present (kernelMapped.pte (0x401000 / pageSize)) := by decide +kernel
  have has : kernelMapped.HasTable (0x401000 / pageSize / 2 ^ 10) := by decide +kernel
  exact (map_one_translation kernelMapped_directory (by decide) (by decide) (by decide) (.inl has)
    (fun present => absurd present absent)).mpr ⟨.inl has, .inl absent⟩

/-- A page is mapped in place of another, and the kernel no longer finds that one. -/
theorem kernel_mapping_lost :
    (∃ blocks free, kernelMapped.Directory blocks free) ∧
      kernelMapped.Undisturbed (0x400000 / pageSize) ∧
      ¬ kernelMapped.MapsOnly 0x400000 (kernelMapped.base + 1) 7 := by
  refine ⟨⟨_, _, kernelMapped_directory⟩, .inr (.inr (by decide +kernel)), ?_⟩
  rintro ⟨after, returned, -, -, kept⟩
  have same := kept 0xC0010 (by decide) (by decide)
  have lost : (kernelMapped.map allocOne kernelMapped.pde 0x400000 (kernelMapped.base + 1) 7).toOption.all
      (fun after => decide (after.pte 0xC0010 ≠ kernelMapped.pte 0xC0010)) = true := by
    decide +kernel
  rw [returned] at lost
  exact decide_eq_true_eq.mp lost same

end Paging

end WindOs.Mm
