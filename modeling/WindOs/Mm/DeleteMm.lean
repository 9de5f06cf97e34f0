import WindOs.Mm.CopyMm

namespace WindOs.Mm

open Data

/-! # delete_mm of proc.c

The last user of an address space gives back its frames, its page tables and its
directory.  The pages that are passed to `free_page` on the way are written down in
their order.  `free(vma)` and `free(mm)` belong to the heap and are left out.
-/

namespace Paging

open VmState

/-- `la_addr_to_pg`; the subtractions are those of `u32`. -/
def laAddrToPg (pg : Paging) (addr : Nat) : Nat :=
  pg.base + (addr + (2 ^ 32 - (vertualMem + pageSize * pg.base) % 2 ^ 32)) % 2 ^ 32 / pageSize

/-- What `unmap` passes to `free_page` at an entry. -/
def unmapCalls (pg : Paging) (frame i : Nat) : List Nat :=
  if Entry.Present (pg.entry frame i) ∧ pg.ref (Entry.addr (pg.entry frame i)) - 1 = 0 then
    [Entry.addr (pg.entry frame i)]
  else []

/-- One round of the first loop over a VMA. -/
def unmapRound (pde vmmEnd : Nat) :
    Nat × Paging × List Nat → (Nat × Paging × List Nat) ⊕ Except Halt (Paging × List Nat)
  | (vmaStart, pg, calls) =>
      if vmaStart < vmmEnd then
        match pg.lookupPte pde vmaStart with
        | none => .inl (nextTable vmaStart, pg, calls)
        | some (frame, i) =>
            if Entry.addr (pg.entry frame i) ≠ 0 then
              attempt (pg.unmap pde vmaStart) fun after =>
                (nextPage vmaStart, after, calls ++ pg.unmapCalls frame i)
            else .inl (nextPage vmaStart, pg, calls)
      else .inr (.ok (pg, calls))

/-- One round of the second loop.  The frame of the table is taken for its index in
`pages`, and the entry stays present when its address is cleared. -/
def freeTableRound (pde vmmEnd : Nat) :
    Nat × Paging × List Nat → (Nat × Paging × List Nat) ⊕ Except Halt (Paging × List Nat)
  | (vmaStart, pg, calls) =>
      if vmaStart < vmmEnd then
        if Entry.Present (pg.entry pde (vmaStart / 2 ^ 22)) then
          let page := pg.base + Entry.addr (pg.entry pde (vmaStart / 2 ^ 22))
          attempt (pg.freePage page 1) fun pg =>
            (nextPage vmaStart,
              pg.setEntry pde (vmaStart / 2 ^ 22)
                (Entry.setAddr (pg.entry pde (vmaStart / 2 ^ 22)) 0),
              calls ++ [page])
        else .inl (nextPage vmaStart, pg, calls)
      else .inr (.ok (pg, calls))

/-- Both loops over a VMA; the second starts where the first table begins. -/
def deleteVma (fuel : Nat) (pde : Nat) (vma : VmaStruct) (state : Paging × List Nat) :
    Except Halt (Paging × List Nat) := do
  let unmapped ← (loop (unmapRound pde vma.vmmEnd) fuel (vma.vmmStart, state)).getD
    (.error .unfinished)
  (loop (freeTableRound pde vma.vmmEnd) fuel
    (vma.vmmStart - vma.vmmStart % (1024 * pageSize), unmapped)).getD (.error .unfinished)

def deleteVmaRound (fuel : Nat) (mm : PagedMm) :
    VmaNode × Paging × List Nat → (VmaNode × Paging × List Nat) ⊕ Except Halt (Paging × List Nat)
  | (.head, state) => .inr (.ok state)
  | (.vma v, state) =>
      attempt (deleteVma fuel mm.directory (mm.list.vmas v) state) fun state =>
        (mm.list.nodes.next (.vma v), state)

/-- The branch of `delete_mm` for the last user. -/
def tearDown (fuel : Nat) (pg : Paging) (mm : PagedMm) : Except Halt (Paging × List Nat) := do
  let (pg, calls) ← (loop (deleteVmaRound fuel mm) fuel (mm.list.nodes.next .head, pg, [])).getD
    (.error .unfinished)
  let page := pg.laAddrToPg mm.pde
  let pg ← pg.freePage page 1
  .ok (pg, calls ++ [page])

/-- The `mm` that is left, `none` if it was the last use, with the calls of `free_page`. -/
def deleteMm (fuel : Nat) (pg : Paging) (mm : PagedMm) :
    Except Halt (Option PagedMm × Paging × List Nat) :=
  let num := AddressSpaces.lessOne mm.list.num
  let pg := { pg with tlb := fun _ => none }
  if num = 0 then (pg.tearDown fuel mm).map (none, ·)
  else .ok (some { mm with list := { mm.list with num } }, pg, [])

variable {pg after : Paging} {mm old : PagedMm} {frame page pde la i n fuel : Nat}

structure SameArray (pg after : Paging) : Prop where
  base : after.base = pg.base
  count : after.count = pg.count

namespace SameArray

theorem refl (pg : Paging) : SameArray pg pg := ⟨rfl, rfl⟩

theorem trans {middle : Paging} (first : SameArray pg middle) (second : SameArray middle after) :
    SameArray pg after :=
  ⟨second.base.trans first.base, second.count.trans first.count⟩

theorem freePage (done : pg.freePage page n = .ok after) : SameArray pg after := by
  unfold Paging.freePage at done
  split at done
  · cases done
    exact ⟨rfl, rfl⟩
  · cases done

theorem evict (done : pg.evict page = .ok after) : SameArray pg after := by
  obtain ⟨⟨frame, i⟩, -, freed⟩ := ok_of_bind done
  have written : SameArray pg (pg.writeOut page frame i) := ⟨rfl, rfl⟩
  exact written.trans (freePage freed)

theorem swapOut (done : pg.swapOut n = .ok after) : SameArray pg after := by
  refine @loop_ok_invariant _ _ _ _ _ _ _ _ (fun state => SameArray pg state.2.2)
    (fun after => SameArray pg after) ?_ ?_ done (refl pg)
  · intro state next same round
    obtain ⟨begin, n, middle⟩ := state
    simp only [swapOutRound] at round
    split at round
    · obtain ⟨result, evicted, rfl⟩ := attempt_again round
      exact same.trans (evict evicted)
    · cases round
  · intro state result same round
    obtain ⟨begin, n, middle⟩ := state
    simp only [swapOutRound] at round
    split at round
    · exact absurd round attempt_not_ok
    · cases round
      exact same

theorem allocPage {found : Option Nat} (done : pg.allocPage n = .ok (found, after)) :
    SameArray pg after := by
  cases called : pg.area.allocPage (pg.count + 1) n with
  | none =>
      unfold Paging.allocPage at done
      rw [called] at done
      cases done
  | some result =>
      obtain ⟨page, area⟩ := result
      cases page with
      | none =>
          unfold Paging.allocPage at done
          rw [called] at done
          cases done
          exact ⟨rfl, rfl⟩
      | some p =>
          rw [allocPage_served called] at done
          obtain ⟨middle, swapped, ended⟩ := ok_of_bind done
          cases ended
          have served : SameArray pg { pg with area } := ⟨rfl, rfl⟩
          split at swapped
          · exact served.trans (swapOut swapped)
          · cases swapped
            exact served

theorem dropRef (done : pg.dropRef page = .ok after) : SameArray pg after := by
  let counted := { pg with ref := Function.update pg.ref page (pg.ref page - 1) }
  have same : SameArray pg counted := ⟨rfl, rfl⟩
  change (if counted.ref page = 0 then counted.freePage page 1 else .ok counted) = .ok after at done
  split at done
  · exact same.trans (freePage done)
  · obtain rfl := Except.ok.inj done
    exact same

theorem unmap (done : pg.unmap pde la = .ok after) : SameArray pg after := by
  obtain ⟨⟨frame, i⟩, -, ended⟩ := ok_of_bind done
  simp only at ended
  split at ended
  · obtain ⟨middle, dropped, cleared⟩ := ok_of_bind ended
    cases cleared
    exact (dropRef dropped).trans ⟨rfl, rfl⟩
  · cases ended
    exact refl pg

theorem getPte {pte : Option (Nat × Nat)} (done : pg.getPte allocOne pde la = .ok (pte, after)) :
    SameArray pg after := by
  unfold Paging.getPte at done
  split at done
  · cases done
    exact refl pg
  · obtain ⟨⟨found, middle⟩, allocated, ended⟩ := ok_of_bind done
    have same := allocPage allocated
    cases found with
    | none =>
        cases ended
        exact same
    | some frame =>
        cases ended
        exact same.trans ⟨rfl, rfl⟩

theorem replace (done : pg.replace pde frame i page = .ok after) : SameArray pg after := by
  unfold Paging.replace at done
  split at done
  · split at done
    · cases done
      exact ⟨rfl, rfl⟩
    · exact unmap done
  · cases done
    exact refl pg

theorem map {sign : Nat} (done : pg.map allocOne pde la page sign = .ok after) :
    SameArray pg after := by
  obtain ⟨⟨pte, middle⟩, got, ended⟩ := ok_of_bind done
  obtain ⟨⟨frame, i⟩, -, rest⟩ := ok_of_bind ended
  obtain ⟨replaced, changed, written⟩ := ok_of_bind rest
  cases written
  have counted : SameArray middle
      { middle with ref := Function.update middle.ref page (middle.ref page + 1) } := ⟨rfl, rfl⟩
  exact ((getPte got).trans counted).trans ((replace changed).trans ⟨rfl, rfl⟩)

theorem touch {sign : Nat} (done : pg.touch allocOne la sign = .ok after) : SameArray pg after := by
  obtain ⟨⟨found, middle⟩, allocated, ended⟩ := ok_of_bind done
  have same := allocPage allocated
  cases found with
  | none =>
      cases ended
      exact same
  | some page =>
      obtain ⟨_, -, placing⟩ := ok_of_bind ended
      obtain ⟨mapped, called, queued⟩ := ok_of_bind placing
      cases queued
      have placed : SameArray middle { middle with va := Function.update middle.va page la } :=
        ⟨rfl, rfl⟩
      exact (same.trans placed).trans ((map called).trans ⟨rfl, rfl⟩)

theorem swapIn (done : pg.swapIn allocOne la = .ok after) : SameArray pg after := by
  obtain ⟨⟨found, middle⟩, allocated, ended⟩ := ok_of_bind done
  have same := allocPage allocated
  cases found with
  | none => cases ended
  | some page =>
      obtain ⟨⟨frame, i⟩, -, rest⟩ := ok_of_bind ended
      obtain ⟨mapped, called, queued⟩ := ok_of_bind rest
      cases queued
      let read := { middle with
        memory := Function.update middle.memory page (middle.disk.read
          (sector (middle.entry frame i / 2 ^ 8)) (pageSize / Disk.sectSize) (middle.memory page)) }
      have filled : SameArray middle read := ⟨rfl, rfl⟩
      exact (same.trans filled).trans ((map called).trans ⟨rfl, rfl⟩)

theorem doSwap {cr2 : Nat} {isWrite : Bool} (done : pg.doSwap allocOne cr2 isWrite = .ok after) :
    SameArray pg after := by
  unfold Paging.doSwap at done
  simp only at done
  split at done
  · cases done
  · cases done
  · next vma mm _ =>
      split at done
      · cases done
      · split at done
        · cases done
        · obtain ⟨⟨pte, middle⟩, got, ended⟩ := ok_of_bind done
          obtain ⟨⟨frame, i⟩, -, bound⟩ := ok_of_bind ended
          have searched : SameArray pg { pg with mm } := ⟨rfl, rfl⟩
          have same := searched.trans (getPte got)
          simp only at bound
          split at bound
          · exact same.trans (touch bound)
          · exact same.trans (swapIn bound)

theorem copyPage {cr3 dst src : Nat} (done : pg.copyPage cr3 dst src = .ok after) :
    SameArray pg after := by
  unfold Paging.copyPage at done
  split at done
  · cases done
  · cases done
  · cases done
    exact ⟨rfl, rfl⟩

theorem ownTable {oldPde start : Nat} {oldPte : Nat × Nat}
    (done : pg.ownTable pde oldPde start oldPte = .ok after) : SameArray pg after := by
  obtain ⟨⟨pte, middle⟩, got, ended⟩ := ok_of_bind done
  have same := getPte got
  simp only at ended
  split at ended
  · obtain ⟨⟨again, owned⟩, created, copied⟩ := ok_of_bind ended
    cases copied
    have cleared : SameArray middle (middle.setEntry pde (start / 2 ^ 22)
        (Entry.setSign (middle.entry pde (start / 2 ^ 22)) (0x4 ||| 0x2))) := ⟨rfl, rfl⟩
    exact (same.trans cleared).trans ((getPte created).trans ⟨rfl, rfl⟩)
  · cases ended
    exact same

theorem copyMapped {oldPde start : Nat} {oldPte : Nat × Nat}
    (done : pg.copyMapped pde oldPde start oldPte = .ok after) : SameArray pg after := by
  obtain ⟨owned, created, rest⟩ := ok_of_bind done
  obtain ⟨⟨found, middle⟩, allocated, ended⟩ := ok_of_bind rest
  have same := (ownTable created).trans (allocPage allocated)
  cases found with
  | none => cases ended
  | some page =>
      obtain ⟨mapped, called, copied⟩ := ok_of_bind ended
      exact (same.trans (map called)).trans (copyPage copied)

theorem copyPages {oldPde vmmStart vmmEnd : Nat}
    (done : pg.copyPages fuel pde oldPde vmmStart vmmEnd = .ok after) : SameArray pg after := by
  refine @loop_ok_invariant _ _ _ _ _ _ _ _ (fun state => SameArray pg state.2)
    (fun after => SameArray pg after) ?_ ?_ done (refl pg)
  · intro state next same round
    obtain ⟨start, middle⟩ := state
    simp only [copyPageRound] at round
    split at round
    · split at round
      · obtain rfl := Sum.inl.inj round
        exact same
      · split at round
        · obtain ⟨result, copied, rfl⟩ := attempt_again round
          exact same.trans (copyMapped copied)
        · obtain rfl := Sum.inl.inj round
          exact same
    · cases round
  · intro state result same round
    obtain ⟨start, middle⟩ := state
    simp only [copyPageRound] at round
    split at round
    · split at round
      · cases round
      · split at round
        · exact absurd round attempt_not_ok
        · cases round
    · cases round
      exact same

theorem malloc {heap later : Heap} {nullIndex size addr : Nat}
    (done : pg.malloc nullIndex fuel heap size = .ok (after, later, addr)) : SameArray pg after := by
  rcases malloc_pages done with rfl | ⟨page, allocated⟩
  · exact refl after
  · exact allocPage allocated

theorem copyVma {heap later : Heap} {list last : VmaList} {fields : VmaStruct} {nullIndex oldPde : Nat}
    (done : pg.copyVma nullIndex fuel heap list pde oldPde fields = .ok (last, after, later)) :
    SameArray pg after := by
  obtain ⟨⟨created, begun, left⟩, made, rest⟩ := ok_of_bind done
  obtain ⟨copied, pages, ended⟩ := ok_of_bind rest
  cases ended
  obtain ⟨⟨served, taken, addr⟩, called, linked⟩ := ok_of_bind made
  have same := malloc called
  simp only at linked
  split at linked
  · cases linked
  · cases linked
    exact same.trans (copyPages pages)

theorem copyMm {heap later : Heap} {nullIndex : Nat}
    (done : pg.copyMm nullIndex fuel heap old = .ok (mm, after, later)) : SameArray pg after := by
  obtain ⟨⟨first, left, addr⟩, called, taken⟩ := ok_of_bind done
  obtain ⟨⟨found, middle⟩, allocated, ended⟩ := ok_of_bind taken
  cases found with
  | none => cases ended
  | some newPde =>
      obtain ⟨begun, directories, rest⟩ := ok_of_bind ended
      obtain ⟨⟨list, last, rest⟩, copied, result⟩ := ok_of_bind rest
      cases result
      refine @loop_ok_invariant _ _ _ _ _ _ _ _ (fun state => SameArray pg state.2.2.1)
        (fun result => SameArray pg result.2.1) ?_ ?_ copied
        (((malloc called).trans (allocPage allocated)).trans (copyPage directories))
      · intro state next same round
        obtain ⟨node, list, middle, heap⟩ := state
        cases node with
        | head => cases round
        | vma v =>
            obtain ⟨⟨list, last, heap⟩, copied, rfl⟩ := attempt_again round
            exact same.trans (copyVma copied)
      · intro state result same round
        obtain ⟨node, list, middle, heap⟩ := state
        cases node with
        | head =>
            cases round
            exact same
        | vma v => exact absurd round attempt_not_ok

theorem deleteVma {vma : VmaStruct} {state result : Paging × List Nat}
    (done : deleteVma fuel pde vma state = .ok result) : SameArray state.1 result.1 := by
  obtain ⟨unmapped, first, second⟩ := ok_of_bind done
  have same : SameArray state.1 unmapped.1 := by
    refine @loop_ok_invariant _ _ _ _ _ _ _ _ (fun now => SameArray state.1 now.2.1)
      (fun result => SameArray state.1 result.1) ?_ ?_ first (refl _)
    · intro now next same round
      obtain ⟨start, middle, calls⟩ := now
      simp only [unmapRound] at round
      split at round
      · split at round
        · obtain rfl := Sum.inl.inj round
          exact same
        · split at round
          · obtain ⟨result, called, rfl⟩ := attempt_again round
            exact same.trans (unmap called)
          · obtain rfl := Sum.inl.inj round
            exact same
      · cases round
    · intro now result same round
      obtain ⟨start, middle, calls⟩ := now
      simp only [unmapRound] at round
      split at round
      · split at round
        · cases round
        · split at round
          · exact absurd round attempt_not_ok
          · cases round
      · cases round
        exact same
  refine @loop_ok_invariant _ _ _ _ _ _ _ _ (fun now => SameArray state.1 now.2.1)
    (fun result => SameArray state.1 result.1) ?_ ?_ second same
  · intro now next same round
    obtain ⟨start, middle, calls⟩ := now
    simp only [freeTableRound] at round
    split at round
    · split at round
      · obtain ⟨result, freed, rfl⟩ := attempt_again round
        exact same.trans ((freePage freed).trans ⟨rfl, rfl⟩)
      · obtain rfl := Sum.inl.inj round
        exact same
    · cases round
  · intro now result same round
    obtain ⟨start, middle, calls⟩ := now
    simp only [freeTableRound] at round
    split at round
    · split at round
      · exact absurd round attempt_not_ok
      · cases round
    · cases round
      exact same

end SameArray

/-- The last page that is freed is the one that `la_addr_to_pg` finds for the directory. -/
theorem tearDown_last {calls : List Nat} (done : pg.tearDown fuel mm = .ok (after, calls)) :
    SameArray pg after ∧ pg.laAddrToPg mm.pde ∈ calls := by
  obtain ⟨⟨middle, front⟩, walked, ended⟩ := ok_of_bind done
  obtain ⟨last, freed, result⟩ := ok_of_bind ended
  have same : SameArray pg middle := by
    refine @loop_ok_invariant _ _ _ _ _ _ _ _ (fun state => SameArray pg state.2.1)
      (fun result => SameArray pg result.1) ?_ ?_ walked (.refl pg)
    · intro state next same round
      obtain ⟨node, state⟩ := state
      cases node with
      | head => cases round
      | vma v =>
          obtain ⟨result, deleted, rfl⟩ := attempt_again round
          exact same.trans (.deleteVma deleted)
    · intro state result same round
      obtain ⟨node, state⟩ := state
      cases node with
      | head =>
          cases round
          exact same
      | vma v => exact absurd round attempt_not_ok
  cases result
  refine ⟨same.trans (.freePage freed), ?_⟩
  have page : pg.laAddrToPg mm.pde = middle.laAddrToPg mm.pde := by
    rw [laAddrToPg, laAddrToPg, same.base]
  rw [page]
  exact List.mem_append_right _ List.mem_cons_self

theorem SameArray.deleteMm {left : Option PagedMm} {calls : List Nat}
    (done : pg.deleteMm fuel mm = .ok (left, after, calls)) : SameArray pg after := by
  have same : SameArray pg { pg with tlb := fun _ => none } := ⟨rfl, rfl⟩
  unfold Paging.deleteMm at done
  generalize AddressSpaces.lessOne mm.list.num = num at done
  cases num with
  | zero =>
      obtain ⟨torn, called, result⟩ := ok_of_map done
      cases result
      exact same.trans (tearDown_last called).1
  | succ num =>
      cases done
      exact same

variable {others calls : List Nat}

/-- One of the `struct Page`s. -/
def IsPage (pg : Paging) (page : Nat) : Prop := pg.base ≤ page ∧ page < pg.base + pg.count

/-- A page table for an address of a VMA, to which no other directory refers. -/
def OwnsTable (pg : Paging) (mm : PagedMm) (others : List Nat) (table : Nat) : Prop :=
  (∃ la, mm.InVma la ∧ Entry.Present (pg.entry mm.directory (la / 2 ^ 22)) ∧
    Entry.addr (pg.entry mm.directory (la / 2 ^ 22)) = table) ∧
  ∀ other ∈ others, ¬ pg.Refers other table

def MapsFrame (pg : Paging) (mm : PagedMm) (frame : Nat) : Prop :=
  ∃ la, mm.InVma la ∧ pg.translate mm.directory la = some frame

/-- `others` are the other directories, and `calls` the pages passed to `free_page`. -/
structure FreesOwned (pg after : Paging) (mm : PagedMm) (others calls : List Nat) : Prop where
  tables : ∀ table, pg.OwnsTable mm others table → calls.count table = 1
  directory : calls.count mm.directory = 1
  frames : ∀ frame, pg.MapsFrame mm frame → after.ref frame = pg.ref frame - 1
  nothingElse : ∀ page ∈ calls, pg.IsPage page ∧
    (pg.OwnsTable mm others page ∨ page = mm.directory ∨ pg.MapsFrame mm page ∧ after.ref page = 0)

/-- The teardown comes to its end, and has given back exactly what the `mm` owned. -/
def TearsDownExactly (pg : Paging) (mm : PagedMm) (others : List Nat) : Prop :=
  ∃ fuel after calls, pg.tearDown fuel mm = .ok (after, calls) ∧
    FreesOwned pg after mm others calls

/-- An `mm` that `copy_mm` has made, after any faults and any other use of it. -/
inductive Copied : Paging → PagedMm → Prop where
  | copy {pg after : Paging} {heap later : Heap} {old mm : PagedMm} {nullIndex fuel : Nat}
      (array : pg.count ≤ maxPageNum)
      (copied : pg.copyMm nullIndex fuel heap old = .ok (mm, after, later)) : Copied after mm
  | fault {pg after : Paging} {mm : PagedMm} {cr2 : Nat} {isWrite : Bool} (before : Copied pg mm)
      (served : pg.doSwap allocOne cr2 isWrite = .ok after) : Copied after mm
  | createVma {pg : Paging} {mm : PagedMm} {list : VmaList} {fields : VmaStruct} {v fuel : Nat}
      (before : Copied pg mm) (created : mm.list.createVma fuel fields = some (list, v)) :
      Copied pg { mm with list }
  | share {pg : Paging} {mm : PagedMm} (before : Copied pg mm) :
      Copied pg { mm with list := { mm.list with num := (mm.list.num + 1) % 2 ^ 32 } }
  | release {pg after : Paging} {mm left : PagedMm} {calls : List Nat} {fuel : Nat}
      (before : Copied pg mm) (deleted : pg.deleteMm fuel mm = .ok (some left, after, calls)) :
      Copied after left
  /-- What other processes do in the meantime. -/
  | elsewhere {pg after : Paging} {mm : PagedMm} (before : Copied pg mm)
      (array : SameArray pg after) : Copied after mm

theorem Copied.array (copied : Copied pg mm) : pg.count ≤ maxPageNum := by
  induction copied with
  | copy array copied =>
      rw [(SameArray.copyMm copied).count]
      exact array
  | fault _ served ih =>
      rw [(SameArray.doSwap served).count]
      exact ih
  | createVma _ _ ih => exact ih
  | share _ ih => exact ih
  | release _ deleted ih =>
      rw [(SameArray.deleteMm deleted).count]
      exact ih
  | elsewhere _ array ih =>
      rw [array.count]
      exact ih

/-- The physical address of a page, taken for a kernel address, is that of a record
far behind the array. -/
theorem laAddrToPg_outside (array : pg.count ≤ maxPageNum) (inside : pg.IsPage mm.directory) :
    ¬ pg.IsPage (pg.laAddrToPg mm.pde) := by
  simp only [IsPage, PagedMm.directory, pageSize] at inside
  simp only [maxPageNum] at array
  simp only [IsPage, laAddrToPg, pageSize, vertualMem]
  omega

theorem not_exact (array : pg.count ≤ maxPageNum) : ¬ pg.TearsDownExactly mm others := by
  rintro ⟨fuel, after, calls, done, frees⟩
  have directory : mm.directory ∈ calls := by
    rw [← List.count_pos_iff, frees.directory]
    decide
  have last := (tearDown_last done).2
  exact laAddrToPg_outside array (frees.nothingElse _ directory).1 (frees.nothingElse _ last).1

/-- `delete_mm` never gives back exactly what the `mm` owns: the last page it passes to
`free_page` is none. -/
theorem teardown_not_exact (copied : Copied pg mm) : ¬ pg.TearsDownExactly mm others :=
  not_exact copied.array

/-- A copy of `bootMm` with a VMA of its own. -/
def executed : Option (Paging × PagedMm) :=
  (bootPages.copyMm nullBelow 4 oneFree bootMm).toOption.bind fun (mm, pg, _) =>
    (mm.list.createVma 4 { vmmStart := 0x400000, vmmEnd := 0x401000, flags := 7 }).map fun created =>
      (pg, { mm with list := created.1 })

theorem executed_copied (run : executed = some (pg, mm)) : Copied pg mm := by
  obtain ⟨⟨copy, middle, heap⟩, copied, ended⟩ := Option.bind_eq_some_iff.mp run
  obtain ⟨⟨list, v⟩, created, result⟩ := Option.map_eq_some_iff.mp ended
  cases result
  exact .createVma (.copy (by decide) (ok_of_toOption copied)) created

theorem teardown_not_exact_executed :
    ∃ pg mm, executed = some (pg, mm) ∧ ¬ pg.TearsDownExactly mm [1] := by
  have run : executed.isSome := by decide +kernel
  obtain ⟨⟨pg, mm⟩, result⟩ := Option.isSome_iff_exists.mp run
  exact ⟨pg, mm, result, teardown_not_exact (executed_copied result)⟩

/-- The program exits as the last user of its `mm`.  The directory is in page 16, and
the page behind the array that is freed instead is not one. -/
theorem exited_program_keeps_directory :
    ∃ pg mm after, Copied pg mm ∧ mm.directory = 16 ∧
      pg.deleteMm 4 mm = .ok (none, after, [16 + 0x40000]) ∧ ¬ pg.TearsDownExactly mm [1] := by
  have run : executed.any fun result => result.2.directory = 16 ∧ result.1.count = 4 ∧
      (result.1.deleteMm 4 result.2).toOption.any fun left =>
        left.1.isNone ∧ left.2.2 = [16 + 0x40000] := by
    decide +kernel
  obtain ⟨⟨pg, mm⟩, result, checked⟩ := (Option.any_eq_true _ _).mp run
  obtain ⟨directory, count, deleted⟩ := of_decide_eq_true checked
  obtain ⟨⟨left, after, calls⟩, returned, ended⟩ := (Option.any_eq_true _ _).mp deleted
  obtain ⟨gone, freed⟩ := of_decide_eq_true ended
  have gone : left = none := Option.isNone_iff_eq_none.mp gone
  have freed : calls = [16 + 0x40000] := freed
  subst gone freed
  refine ⟨pg, mm, after, executed_copied result, directory, ok_of_toOption returned, not_exact ?_⟩
  have count : pg.count = 4 := count
  rw [count]
  decide

end Paging

end WindOs.Mm
