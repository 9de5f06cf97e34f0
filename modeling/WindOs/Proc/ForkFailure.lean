import WindOs.Mm.MallocPages
import WindOs.Mm.MallocUndone
import WindOs.Mm.PageLists
import WindOs.Proc.Stack

namespace WindOs.Proc

open Data Mm

/-! # A fork that fails

`do_fork` has taken a chunk of the heap, and perhaps the pages of a stack, when it gives up.
The address from which it gives the stack back is that of the stack's last word.
-/

/-- The pages, the heap and the processes. -/
structure Resources where
  pg : Paging
  heap : Heap
  table : ProcTable Nat

/-- `sizeof(struct pcb_t)` -/
def pcbSize : Nat := 92

/-- A byte of the page, at its kernel address. -/
def OnPage (page byte : Nat) : Prop :=
  Paging.pgToAddrLa page ≤ byte ∧ byte < Paging.pgToAddrLa page + pageSize

namespace Resources

variable {before after : Resources} {free fifo list : List Nat} {chunks : List Chunk}
  {nullIndex fuel pcb p : Nat} {current : Option Nat}

/-- `do_fork` without `copy_mm` and `copy_thread`, which come after its last way out. -/
def doFork (nullIndex fuel : Nat) (before : Resources) (current : Option Nat) :
    Except Halt (Int × Resources) :=
  if before.table.procNum > maxProcess then .ok (-1, before)
  else do
    let (pg, heap, pcb) ← before.pg.malloc nullIndex fuel before.heap pcbSize
    if pcb = 0 then .ok (-1, { before with pg, heap })
    else do
      let (stack, pg) ← pg.allocPage kthreadStackPage
      let forked := before.table.doFork current (some pcb) (stack.map Paging.pgToAddrLa)
      if forked.1 ≠ -1 then .ok (forked.1, { pg, heap, table := forked.2 })
      else
        let heap := heap.free pcb
        match stack with
        | none => .ok (-1, { pg, heap, table := forked.2 })
        | some _ => do
            let startStack := (forked.2.pcb (some pcb)).startStack
            let pg ← pg.freePage (pg.laAddrToPg startStack) kthreadStackPage
            .ok (-1, { pg, heap, table := forked.2 })

/-- The lists of pages and of chunks, and where the chunks and the PCBs lie. -/
structure WellFormed (before : Resources) (free fifo : List Nat) (chunks : List Chunk) : Prop where
  queues : PageState.Queues before.pg.count { area := before.pg.area, blocks := [] } free fifo
  room : before.pg.base + before.pg.count < 2 ^ 18
  represents : before.heap.Represents chunks
  apart : Apart Chunk.Holds chunks
  coalesced : Coalesced Chunk.addr Chunk.stop Chunk.Free chunks
  backed : ∀ byte, Covered Chunk.Holds chunks byte →
    ∃ p, p < before.pg.count ∧ p ∉ free ∧ OnPage (before.pg.base + p) byte
  pcbs : ∀ p, before.table.allocated p = true →
    ∃ chunk ∈ chunks, chunk.allocated = true ∧ p = chunk.addr + chunkSize

/-- There is no chunk for a PCB. -/
def NoChunk (chunks : List Chunk) : Prop := chunks.find? (Heap.Fits (chunkSize + pcbSize)) = none

/-- The first free page, of which alone `alloc_page` looks at the size, begins no block of
`n` pages. -/
def Short (area : FreeArea) (free : List Nat) (n : Nat) : Prop :=
  ∀ p, free.head? = some p → area.freePages p < n

/-- Nothing is evicted when a page is taken, or it was the last: `free_page` adds nothing to an
empty list. -/
def Quiet (before : Resources) (free fifo : List Nat) : Prop :=
  before.pg.isVmmInited = false ∨ fifo = [] ∨ free.length = 1

section Pages

variable {pg last : Paging} {pages : Option Nat} {blocks : List (Nat × Nat)}

/-- What `alloc_page(1)` has taken, and what an eviction has brought. -/
theorem allocOne_cases (queues : PageState.Queues pg.count { area := pg.area, blocks := [] } free fifo)
    (done : pg.allocPage 1 = .ok (pages, last)) :
    pages = none ∧ last = pg ∧ Short pg.area free 1 ∨
    ∃ x left listed queue, free = x :: left ∧ ¬ Short pg.area free 1 ∧ pages = some (pg.base + x) ∧
      last.base = pg.base ∧ last.count = pg.count ∧
      PageState.Queues last.count { area := last.area, blocks := [] } listed queue ∧
      ((pg.isVmmInited = false ∨ fifo = [] ∨ left = []) ∧ listed = left ∧
          (∀ q tail, left = q :: tail → last.area.freePages q = pg.area.freePages x - 1) ∨
        ¬ (pg.isVmmInited = false ∨ fifo = [] ∨ left = []) ∧
          ∃ e, e ∈ fifo ∧ ∀ q, q ∈ listed ↔ q ∈ left ∨ q = e) := by
  have short := queues.sound.refused_iff Nat.one_pos
  rcases queues.sound.alloc Nat.one_pos with refused | ⟨x, left, area, whole, served, -, large, sizes, -⟩
  · rw [Paging.allocPage_refused refused] at done
    cases done
    exact .inl ⟨rfl, rfl, short.mp refused⟩
  · rcases queues.alloc Nat.one_pos with refused | ⟨y, left', area', whole', served', taken⟩
    · rw [refused] at served
      cases served
    · have same := Prod.mk.inj (Option.some.inj (served'.symm.trans served))
      obtain ⟨rfl, rfl⟩ : y = x ∧ area' = area := ⟨Option.some.inj same.1, same.2⟩
      obtain rfl : left = left' := List.append_cancel_left (whole.symm.trans whole')
      right
      have kept := taken.forget (List.nil_sublist _)
      have first : ¬ Short pg.area free 1 := by
        intro small
        have less := small y (by simp [whole])
        simp only at large
        omega
      have sized : ∀ q tail, left = q :: tail → area'.freePages q = pg.area.freePages y - 1 := by
        intro q tail leads
        rw [sizes q tail leads, Function.update_self]
      rw [Paging.allocPage_served served] at done
      obtain ⟨swapped, swap, ended⟩ := ok_of_bind done
      cases ended
      split at swap
      · rename_i evicts
        rcases Paging.swapOut_one taken.ring swap with ⟨empty, rfl⟩ | ⟨e, rest, rfl, evicted⟩
        · exact ⟨y, left, left, fifo, whole, first, rfl, rfl, rfl, kept,
            .inl ⟨.inr (.inl empty), rfl, sized⟩⟩
        · cases slot : ({ pg with area := area' } : Paging).lookupPte pg.pde (pg.va (pg.base + e)) with
          | none =>
              unfold Paging.evict at evicted
              simp only [slot] at evicted
              cases evicted
          | some entry =>
              obtain ⟨frame, i⟩ := entry
              obtain ⟨freed, listed, again, given, members, -⟩ :=
                @Paging.evict_slot { pg with area := area' } [] frame i _ _ e left [] rest kept slot
              rw [again] at evicted
              cases evicted
              refine ⟨y, left, listed, rest, whole, first, rfl, rfl, rfl, given, ?_⟩
              by_cases empty : left = []
              · left
                have none : listed = [] := by
                  rw [List.eq_nil_iff_forall_not_mem]
                  intro q inside
                  exact ((members q).mp inside).1 empty
                exact ⟨.inr (.inr empty), none.trans empty.symm, fun q tail leads => by simp [empty] at leads⟩
              · right
                refine ⟨by simp [evicts.1, empty], e, List.mem_cons_self, ?_⟩
                intro q
                rw [members q]
                exact and_iff_right empty
      · rename_i quiet
        cases swap
        refine ⟨y, left, left, fifo, whole, first, rfl, rfl, rfl, kept, .inl ⟨.inl ?_, rfl, sized⟩⟩
        simpa using quiet

end Pages

/-! ## What malloc has done -/

theorem onPage_unique {page other byte : Nat} (here : OnPage page byte) (there : OnPage other byte) :
    Paging.pgToAddrLa page = Paging.pgToAddrLa other := by
  simp only [OnPage, Paging.pgToAddrLa, pageSize, vertualMem] at *
  omega

theorem onPage_first {page : Nat} : OnPage page (Paging.pgToAddrLa page) := by
  simp only [OnPage, pageSize]
  omega

theorem pgToAddrLa_inj {page other : Nat} (small : page < 2 ^ 18) (smallToo : other < 2 ^ 18)
    (same : Paging.pgToAddrLa page = Paging.pgToAddrLa other) : page = other := by
  simp only [Paging.pgToAddrLa, pageSize, vertualMem] at same
  omega

theorem onPage_bounds {page byte : Nat} (small : page < 2 ^ 18) (here : OnPage page byte) :
    vertualMem ≤ byte ∧ byte < pageSize * (page + 1) + vertualMem := by
  simp only [OnPage, Paging.pgToAddrLa, pageSize, vertualMem] at *
  omega

namespace WellFormed

variable {chunk : Chunk} {page : Nat}

/-- The chunks lie in the pool, which ends below the last address. -/
theorem bounded (wellFormed : before.WellFormed free fifo chunks) (member : chunk ∈ chunks) :
    chunk.Bounded ∧ chunk.stop < 2 ^ 32 := by
  have room := wellFormed.room
  have first : chunk.Holds chunk.addr := HeapState.holds_addr chunk
  have final : chunk.Holds (chunk.stop - 1) := by
    simp only [Chunk.Holds, Between, Chunk.stop, chunkSize]
    omega
  obtain ⟨p, below, -, start⟩ := wellFormed.backed _ ⟨chunk, member, first⟩
  obtain ⟨q, belowToo, -, stop⟩ := wellFormed.backed _ ⟨chunk, member, final⟩
  have lower := (onPage_bounds (by omega) start).1
  have upper := (onPage_bounds (by omega) stop).2
  have top : chunk.stop < 2 ^ 32 := by
    simp only [pageSize, vertualMem] at upper
    omega
  exact ⟨⟨lower, by omega⟩, top⟩

/-- No chunk reaches into a page that is free, or none. -/
theorem elsewhere (wellFormed : before.WellFormed free fifo chunks)
    (apart : ∀ p < before.pg.count, p ∉ free →
      Paging.pgToAddrLa (before.pg.base + p) ≠ Paging.pgToAddrLa page)
    {byte : Nat} (here : OnPage page byte) : ¬ Covered Chunk.Holds chunks byte := by
  intro covered
  obtain ⟨p, below, notFree, there⟩ := wellFormed.backed byte covered
  exact apart p below notFree (onPage_unique there here)

theorem address_inj (wellFormed : before.WellFormed free fifo chunks) {x y : Nat}
    (below : x < before.pg.count) (belowToo : y < before.pg.count)
    (same : Paging.pgToAddrLa (before.pg.base + x) = Paging.pgToAddrLa (before.pg.base + y)) : x = y := by
  have room := wellFormed.room
  have equal := pgToAddrLa_inj (by omega) (by omega) same
  omega

theorem apart_free (wellFormed : before.WellFormed free fifo chunks) {x : Nat} (member : x ∈ free) :
    ∀ p < before.pg.count, p ∉ free →
      Paging.pgToAddrLa (before.pg.base + p) ≠ Paging.pgToAddrLa (before.pg.base + x) := by
  intro p below notFree same
  have index := wellFormed.address_inj below (wellFormed.queues.sound.bounded x member) same
  exact notFree (index ▸ member)

end WellFormed

/-- The heap after `malloc`, which may have been given a page: freeing the block undoes it but
for the page. -/
structure Undoes (before : Resources) (chunks : List Chunk) (heap : Heap) (pcb : Nat)
    (extra : Option Nat) : Prop where
  nonzero : pcb ≠ 0
  fresh : before.table.allocated pcb = false
  freed : ∃ later, (heap.free pcb).Represents later ∧
    (∀ byte, Heap.Spare later byte ↔ Heap.Spare chunks byte ∨ ∃ page ∈ extra, OnPage page byte) ∧
    ∀ chunk, chunk.allocated = true → (chunk ∈ later ↔ chunk ∈ chunks)

theorem undoes_chunk {chunk : Chunk} (wellFormed : before.WellFormed free fifo chunks)
    (fit : chunks.find? (Heap.Fits (chunkSize + pcbSize)) = some chunk) :
    Undoes before chunks (before.heap.split chunk.addr (chunkSize + pcbSize))
      ((chunk.addr + chunkSize) % 2 ^ 32) none := by
  have member := List.mem_of_find?_eq_some fit
  have fits := List.find?_some fit
  simp only [Heap.Fits, Bool.and_eq_true, Bool.not_eq_true', decide_eq_true_eq] at fits
  obtain ⟨isFree, fits⟩ := fits
  obtain ⟨front, back, rfl⟩ := List.append_of_mem member
  have top := (wellFormed.bounded member).2
  have addr : (chunk.addr + chunkSize) % 2 ^ 32 = chunk.addr + chunkSize := by
    apply Nat.mod_eq_of_lt
    simp only [Chunk.stop] at top
    omega
  rw [addr]
  refine ⟨by simp [chunkSize], ?_, front ++ chunk :: back, ?_, by simp, by simp⟩
  · cases used : before.table.allocated (chunk.addr + chunkSize) with
    | false => rfl
    | true =>
        obtain ⟨other, inside, taken, same⟩ := wellFormed.pcbs _ used
        have equal := wellFormed.represents.addr_injective inside member (by omega)
        rw [equal, isFree] at taken
        cases taken
  · exact Heap.split_free wellFormed.represents isFree
      (fun other inside => (wellFormed.bounded inside).1) wellFormed.coalesced fits
      (fun other inside => HeapState.split_fresh wellFormed.apart member inside fits)

theorem undoes_page {page : Nat} (wellFormed : before.WellFormed free fifo chunks)
    (apart : ∀ p < before.pg.count, p ∉ free →
      Paging.pgToAddrLa (before.pg.base + p) ≠ Paging.pgToAddrLa page) :
    Undoes before chunks (before.heap.extend pcbSize (chunkSize + pcbSize) (Paging.pgToAddrLa page))
      ((Paging.pgToAddrLa page + chunkSize) % 2 ^ 32) (some page) := by
  have need : Heap.needPageNum (chunkSize + pcbSize) * pageSize = pageSize := rfl
  have upper : Paging.pgToAddrLa page + pageSize ≤ 2 ^ 32 := by
    simp only [Paging.pgToAddrLa, pageSize, vertualMem]
    omega
  have addr : (Paging.pgToAddrLa page + chunkSize) % 2 ^ 32 = Paging.pgToAddrLa page + chunkSize := by
    apply Nat.mod_eq_of_lt
    simp only [pageSize, chunkSize] at upper ⊢
    omega
  rw [addr]
  refine ⟨by simp [chunkSize], ?_, ?_⟩
  · cases used : before.table.allocated (Paging.pgToAddrLa page + chunkSize) with
    | false => rfl
    | true =>
        obtain ⟨other, inside, -, same⟩ := wellFormed.pcbs _ used
        have start : other.addr = Paging.pgToAddrLa page := by omega
        refine absurd ⟨other, inside, ?_⟩ (wellFormed.elsewhere apart onPage_first)
        rw [← start]
        exact HeapState.holds_addr other
  · obtain ⟨later, represents, spare, same⟩ := @Heap.extend_free _ _ pcbSize (Paging.pgToAddrLa page)
      wellFormed.represents (by rw [need]; exact upper) (by rw [need]; decide)
      (fun other inside held => wellFormed.elsewhere apart (by rwa [need] at held)
        ⟨other, inside, HeapState.holds_addr other⟩)
      (fun other inside => by
        obtain ⟨bounded, top⟩ := wellFormed.bounded inside
        have lower := bounded.lower
        rw [need]
        simp only [Chunk.stop, vertualMem, pageSize] at *
        omega)
      (by rw [need]; decide)
    refine ⟨later, represents, ?_, same⟩
    intro byte
    rw [spare byte, need]
    simp [OnPage]

/-- Where `malloc` got the PCB from, with the free pages and the page of the heap that this
left. -/
inductive Source (before : Resources) (free fifo : List Nat) (chunks : List Chunk)
    (area : FreeArea) : List Nat → Option Nat → Prop where
  | chunk (fits : ¬ NoChunk chunks) (same : area = before.pg.area) :
      Source before free fifo chunks area free none
  | page {x : Nat} {left : List Nat} (none : NoChunk chunks) (first : free = x :: left)
      (found : ¬ Short before.pg.area free 1) (quiet : before.Quiet free fifo)
      (sizes : ∀ q tail, left = q :: tail → area.freePages q = before.pg.area.freePages x - 1) :
      Source before free fifo chunks area left (some (before.pg.base + x))
  | evicted {x e : Nat} {left listed : List Nat} (none : NoChunk chunks) (first : free = x :: left)
      (busy : ¬ before.Quiet free fifo) (queued : e ∈ fifo)
      (members : ∀ q, q ∈ listed ↔ q ∈ left ∨ q = e) :
      Source before free fifo chunks area listed (some (before.pg.base + x))

/-- What `malloc` has done when it returns a PCB. -/
theorem malloc_source {pg : Paging} {heap : Heap} (wellFormed : before.WellFormed free fifo chunks)
    (called : before.pg.malloc nullIndex fuel before.heap pcbSize = .ok (pg, heap, pcb)) :
    ∃ listed queue extra, pg.base = before.pg.base ∧ pg.count = before.pg.count ∧
      PageState.Queues pg.count { area := pg.area, blocks := [] } listed queue ∧
      Undoes before chunks heap pcb extra ∧ Source before free fifo chunks pg.area listed extra := by
  have total : (chunkSize + pcbSize) % 2 ^ 32 = chunkSize + pcbSize := rfl
  have need : Heap.needPageNum (chunkSize + pcbSize) = 1 := rfl
  have done := Paging.malloc_cases wellFormed.represents called
  rw [total, need] at done
  rcases done with ⟨chunk, fit, rfl, rfl, rfl⟩ | ⟨page, none, served, rfl, addr⟩
  · refine ⟨free, fifo, .none, rfl, rfl, wellFormed.queues, undoes_chunk wellFormed fit, .chunk ?_ rfl⟩
    rw [NoChunk, fit]
    simp
  · rw [addr]
    rcases allocOne_cases wellFormed.queues served with
        ⟨impossible, -⟩ | ⟨x, left, listed, queue, rfl, found, same, base, count, queues, rest⟩
    · cases impossible
    · cases same
      have undoes := undoes_page wellFormed
        (wellFormed.apart_free (show x ∈ x :: left from List.mem_cons_self))
      have quiet : before.Quiet (x :: left) fifo ↔
          before.pg.isVmmInited = false ∨ fifo = [] ∨ left = [] := by
        simp [Quiet]
      refine ⟨listed, queue, _, base, count, queues, undoes, ?_⟩
      rcases rest with ⟨still, rfl, sizes⟩ | ⟨busy, e, queued, members⟩
      · exact .page none rfl found (quiet.mpr still) sizes
      · exact .evicted none rfl (fun still => busy (quiet.mp still)) queued members

section Stack

variable {pg last freed : Paging} {stack : Option Nat} {listed queue rest left : List Nat} {i : Nat}

theorem allocStack_cases
    (queues : PageState.Queues pg.count { area := pg.area, blocks := [] } listed queue)
    (done : pg.allocPage kthreadStackPage = .ok (stack, last)) :
    stack = none ∧ last = pg ∧ Short pg.area listed 2 ∨
    ∃ i rest, listed = i :: (i + 1) :: rest ∧ ¬ Short pg.area listed 2 ∧ stack = some (pg.base + i) ∧
      last.base = pg.base ∧ last.count = pg.count ∧
      PageState.Sound pg.count { area := last.area, blocks := [(i, 2)] } rest := by
  have short := queues.sound.refused_iff (show 0 < kthreadStackPage by decide)
  rcases queues.sound.alloc (show 0 < kthreadStackPage by decide) with refused |
      ⟨i, rest, area, whole, served, sound, large, -⟩
  · rw [Paging.allocPage_refused refused] at done
    cases done
    exact .inl ⟨rfl, rfl, short.mp refused⟩
  · right
    rw [Paging.allocPage_served served, if_neg (by simp [kthreadStackPage])] at done
    cases done
    refine ⟨i, rest, whole, ?_, rfl, rfl, rfl, sound⟩
    intro small
    have less := small i (by rw [whole]; rfl)
    simp only [kthreadStackPage] at large
    omega

end Stack

/-! ## What is left behind -/

section Outcome

variable {pg last freed : Paging} {heap : Heap} {table : ProcTable Nat} {area : FreeArea}
  {listed queue rest : List Nat} {extra : Option Nat} {i : Nat}

end Outcome

/-- The free area of `fourFrames` after a call of `alloc_page`. -/
def handedOut (area : FreeArea) (n : Nat) : FreeArea :=
  ((area.allocPage 5 n).map Prod.snd).getD area

/-- The second page is free as well as the third and the fourth. -/
def threeLeft : FreeArea := handedOut VmState.fourFrames.pg.area 1

def idleChunks : List Chunk :=
  [{ addr := 0xC0010000, allocated := true, size := 92 },
    { addr := 0xC0010068, allocated := false, size := 3980 }]

theorem idleOnly_represents : (HeapState.emptyHeap.heap.extend pcbSize (chunkSize + pcbSize)
    0xC0010000).Represents idleChunks := by
  have empty : HeapState.emptyHeap.heap.Represents [] := Heap.mallocInit_represents _ _
  have chunks : Heap.newChunks 0xC0010000 pcbSize = idleChunks := by decide
  rw [← chunks]
  exact Heap.extend_represents empty (by decide) (by decide) (by simp) (by simp)

theorem threeLeft_queues : PageState.Queues 4 { area := threeLeft, blocks := [] } [1, 2, 3] [] := by
  have headed : Headed threeLeft.freePages [1, 2, 3] :=
    ⟨fun _ => ⟨by decide, by decide⟩, fun more => absurd more (by decide),
      fun more => absurd more (by decide), trivial⟩
  exact ⟨⟨⟨by decide, ⟨rfl, rfl⟩, ⟨rfl, rfl⟩, ⟨rfl, rfl⟩, rfl, rfl⟩, by decide, by decide, rfl, headed,
    by decide, by simp, by simp, by simp, List.Pairwise.nil⟩, ⟨by decide, rfl, rfl⟩, by simp, by simp,
    by simp⟩

end Resources

end WindOs.Proc
