import WindOs.Mm.MallocTiling
import WindOs.Mm.PageRefs

namespace WindOs.Mm

open Data

/-! # malloc with the pages of alloc_page

`malloc` does not look whether `alloc_page` returned `NULL`, and nobody looks whether the
header still fits when it is added to the size.
-/

namespace Paging

variable {pg after : Paging} {heap later : Heap} {chunks : List Chunk} {chunk : Chunk}
  {nullIndex fuel size totalAllocSize run addr : Nat}

/-- `pg_to_addr_pa` -/
def pgToAddrPa (page : Nat) : Nat := pageSize * page % 2 ^ 32

/-- `pg_to_addr_la` -/
def pgToAddrLa (page : Nat) : Nat := (pageSize * page + vertualMem) % 2 ^ 32

/-- The state of the pages, the heap and the address returned.  `nullIndex` is what the
machine computes for `NULL - pages` in `pg_to_addr_la(NULL)`: nothing is mapped at the address of no
page, and `page_fault` finds no VMA for the header that is written there. -/
def malloc [Aliases] (nullIndex fuel : Nat) (pg : Paging) (heap : Heap) (size : Nat) :
    Except Halt (Paging × Heap × Nat) :=
  let totalAllocSize := (chunkSize + size) % 2 ^ 32
  match heap.search fuel totalAllocSize with
  | none => .error .unfinished
  | some (some chunk) =>
      .ok (pg, heap.split chunk totalAllocSize, (chunk + chunkSize) % 2 ^ 32)
  | some none => do
      let (pages, pg) ← pg.allocPage (Heap.needPageNum totalAllocSize)
      match pages with
      | none => .error (.fault (pgToAddrLa (pg.base + nullIndex)))
      | some pages =>
          let newChunk := pgToAddrLa pages
          .ok (pg, heap.extend size totalAllocSize newChunk, (newChunk + chunkSize) % 2 ^ 32)

/-- The header does not fit any more, or there is neither a chunk nor a page for it. -/
def Unservable (pg : Paging) (chunks : List Chunk) (size : Nat) : Prop :=
  2 ^ 32 ≤ chunkSize + size ∨
    chunks.find? (Heap.Fits (chunkSize + size)) = none ∧
      ∃ after, pg.allocPage (Heap.needPageNum (chunkSize + size)) = .ok (none, after)

/-- `malloc` returns `NULL`, and the list of chunks is as before. -/
def Refuses (nullIndex : Nat) (pg : Paging) (heap : Heap) (chunks : List Chunk) (size : Nat) : Prop :=
  ∃ fuel after later, pg.malloc nullIndex fuel heap size = .ok (after, later, 0) ∧
    later.Represents chunks

theorem search_found (represents : heap.Represents chunks) {found : Option Nat}
    (searched : heap.search fuel totalAllocSize = some found) :
    found = (chunks.find? (Heap.Fits totalAllocSize)).map Chunk.addr :=
  loop_unique searched (Heap.search_eq represents (Nat.lt_succ_self chunks.length))

/-- The pages are as before, or some have been allocated. -/
theorem malloc_pages (done : pg.malloc nullIndex fuel heap size = .ok (after, later, addr)) :
    after = pg ∨ ∃ page,
      pg.allocPage (Heap.needPageNum ((chunkSize + size) % 2 ^ 32)) = .ok (some page, after) := by
  simp only [malloc] at done
  split at done
  · cases done
  · cases done
    exact .inl rfl
  · obtain ⟨⟨pages, middle⟩, served, written⟩ := ok_of_bind done
    cases pages with
    | none => cases written
    | some page =>
        cases written
        exact .inr ⟨page, served⟩

/-- What `malloc` has done when it returns. -/
theorem malloc_cases (represents : heap.Represents chunks)
    (done : pg.malloc nullIndex fuel heap size = .ok (after, later, addr)) :
    (∃ chunk, chunks.find? (Heap.Fits ((chunkSize + size) % 2 ^ 32)) = some chunk ∧ after = pg ∧
      later = heap.split chunk.addr ((chunkSize + size) % 2 ^ 32) ∧
      addr = (chunk.addr + chunkSize) % 2 ^ 32) ∨
    ∃ page, chunks.find? (Heap.Fits ((chunkSize + size) % 2 ^ 32)) = none ∧
      pg.allocPage (Heap.needPageNum ((chunkSize + size) % 2 ^ 32)) = .ok (some page, after) ∧
      later = heap.extend size ((chunkSize + size) % 2 ^ 32) (pgToAddrLa page) ∧
      addr = (pgToAddrLa page + chunkSize) % 2 ^ 32 := by
  simp only [malloc] at done
  generalize (chunkSize + size) % 2 ^ 32 = totalAllocSize at done ⊢
  cases searched : heap.search fuel totalAllocSize with
  | none =>
      rw [searched] at done
      cases done
  | some found =>
      have fit := search_found represents searched
      rw [searched] at done
      cases first : chunks.find? (Heap.Fits totalAllocSize) with
      | some chunk =>
          rw [fit, first] at done
          cases done
          exact .inl ⟨chunk, rfl, rfl, rfl, rfl⟩
      | none =>
          rw [fit, first] at done
          obtain ⟨⟨pages, middle⟩, served, written⟩ := ok_of_bind done
          cases pages with
          | none => cases written
          | some page =>
              cases written
              exact .inr ⟨page, rfl, served, rfl, rfl⟩

/-- The chunk that was free has been taken. -/
theorem split_taken : ((heap.split run totalAllocSize).header run).allocated = true := by
  simp only [Heap.split, Heap.setSize, Heap.setAllocated, Function.update_self]

/-- The address of a page is not right in front of 0. -/
theorem page_ne_null {page : Nat} : (pgToAddrLa page + chunkSize) % 2 ^ 32 ≠ 0 := by
  simp only [pgToAddrLa, pageSize, vertualMem, chunkSize]
  omega

theorem not_refuses (represents : heap.Represents chunks) :
    ¬ pg.Refuses nullIndex heap chunks size := by
  rintro ⟨fuel, after, later, done, unchanged⟩
  rcases malloc_cases represents done with ⟨chunk, fit, -, rfl, -⟩ | ⟨page, -, -, -, null⟩
  · have header := unchanged.header chunk (List.mem_of_find?_eq_some fit)
    have isFree : chunk.allocated = false := by
      have fits := List.find?_some fit
      simp only [Heap.Fits, Bool.and_eq_true, Bool.not_eq_true'] at fits
      exact fits.1
    have taken := @split_taken heap ((chunkSize + size) % 2 ^ 32) chunk.addr
    rw [header, isFree] at taken
    cases taken
  · exact page_ne_null null.symm

/-- That what cannot be served is refused holds of those requests only that can be. -/
theorem refuses_unservable_iff (represents : heap.Represents chunks) :
    (pg.Unservable chunks size → pg.Refuses nullIndex heap chunks size) ↔
      ¬ pg.Unservable chunks size :=
  ⟨fun refuses unservable => not_refuses represents (refuses unservable),
    fun servable unservable => absurd unservable servable⟩

/-- The pool of `fourFrames` with a directory in frame 1 and one table in frame 2, which maps
the low frames to themselves and to the kernel's addresses. -/
def bootPages : Paging :=
  { VmState.fourFrames.pg with
    memory := fun frame =>
      if frame = 1 then (Bytes.zero.setWord 0 0x2003).setWord 768 0x2003
      else if frame = 2 then
        ((((Bytes.zero.setWord 1 0x1003).setWord 16 0x10003).setWord 17 0x11003).setWord 18
          0x12003).setWord 19 0x13003
      else Bytes.zero }

/-- `NULL - pages` with `pages` at `0xF000`, right in front of the pages of `bootPages`. -/
def nullBelow : Nat := 2 ^ 32 - 2560

/-- A page that `malloc` has taken and that has been given back as a whole. -/
def oneFree : Heap :=
  let empty := Heap.mallocInit (fun _ => { allocated := false, size := 4084 }) { prev := id, next := id }
  { empty with nodes := listInsertBefore empty.nodes .chunkHead (.chunk 0xC0010000) }

theorem oneFree_represents :
    oneFree.Represents [{ addr := 0xC0010000, allocated := false, size := 4084 }] := by
  have empty := Heap.mallocInit_represents (fun _ => { allocated := false, size := 4084 })
    { prev := id, next := id }
  exact empty.insert_last { addr := 0xC0010000, allocated := false, size := 4084 } (by simp) rfl

/-- Five of four pages, and a size to which no header can be added. -/
theorem refuses_unservable_iff_bootPages :
    (bootPages.Unservable [] 20000 ∧
      ¬ (bootPages.Unservable [] 20000 →
        bootPages.Refuses nullBelow HeapState.emptyHeap.heap [] 20000)) ∧
    ¬ (bootPages.Unservable [{ addr := 0xC0010000, allocated := false, size := 4084 }] (2 ^ 32 - 12) →
      bootPages.Refuses nullBelow oneFree
        [{ addr := 0xC0010000, allocated := false, size := 4084 }] (2 ^ 32 - 12)) := by
  have represents : HeapState.emptyHeap.heap.Represents [] := Heap.mallocInit_represents _ _
  have none : bootPages.Unservable [] 20000 := .inr ⟨rfl, bootPages, allocPage_refused rfl⟩
  refine ⟨⟨none, ?_⟩, ?_⟩
  · rw [refuses_unservable_iff represents, not_not]
    exact none
  · rw [refuses_unservable_iff oneFree_represents, not_not]
    exact .inl (by decide)

/-- The size wraps to 0: the chunk is handed out, and its node is left to point to itself.  Where
`alloc_page` has no page, the kernel faults at the address that it computes from `NULL`. -/
theorem wrapped_size_served :
    oneFree.Represents [{ addr := 0xC0010000, allocated := false, size := 4084 }] ∧
      bootPages.Unservable [{ addr := 0xC0010000, allocated := false, size := 4084 }] (2 ^ 32 - 12) ∧
      (bootPages.malloc nullBelow 2 oneFree (2 ^ 32 - 12)).toOption.any
        (fun result => decide (result.2.2 = 0xC001000C ∧
          result.2.1.nodes.next (.chunk 0xC0010000) = .chunk 0xC0010000 ∧
          result.2.1.header 0xC0010000 = { allocated := true, size := 2 ^ 31 - 12 })) = true ∧
      ¬ bootPages.Refuses nullBelow oneFree
        [{ addr := 0xC0010000, allocated := false, size := 4084 }] (2 ^ 32 - 12) ∧
      bootPages.malloc nullBelow 1 HeapState.emptyHeap.heap 20000 = .error (.fault 0xBF610000) := by
  refine ⟨oneFree_represents, .inl (by decide), by decide +kernel, not_refuses oneFree_represents, ?_⟩
  rfl

end Paging

end WindOs.Mm
