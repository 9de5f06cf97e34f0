import Mathlib.Data.List.Nodup
import WindOs.Data.Walk
import WindOs.Data.Tiling
import WindOs.Mm.PageAlloc

namespace WindOs.Mm

open Data

/-! # malloc.c over the chunk headers in memory

A chunk is named by the address of its header.  `alloc_page` is not part of this
file: the address of the run of pages it returns is an argument of `malloc`.
Addresses and sizes are `u32`, and the `size` field has 31 bits.
-/

/-- `sizeof(struct Chunk)`. -/
def chunkSize : Nat := 12

/-- `&chunk_head`, and the `node` of the chunk at an address. -/
inductive ChunkNode where
  | chunkHead
  | chunk (addr : Nat)
deriving DecidableEq, Repr

/-- The two bit fields of a `struct Chunk`. -/
structure Header where
  allocated : Bool
  size : Nat
deriving DecidableEq, Repr

structure Heap where
  header : Nat → Header
  nodes : Links ChunkNode
  /-- The headers and links that are in memory after one header has been written over a part of
  another, by the address of the other and how far behind it the first one begins. -/
  overlap : Nat → Nat → (Nat → Header) × Links ChunkNode := fun _ _ => (header, nodes)

namespace Heap

def mallocInit (header : Nat → Header) (nodes : Links ChunkNode) : Heap where
  header := header
  nodes := listInit nodes .chunkHead

def setAllocated (heap : Heap) (addr : Nat) (allocated : Bool) : Heap :=
  { heap with header := Function.update heap.header addr { heap.header addr with allocated } }

def setSize (heap : Heap) (addr size : Nat) : Heap :=
  { heap with header :=
      Function.update heap.header addr { heap.header addr with size := size % 2 ^ 31 } }

/-- One round of the search for a chunk that is free and large enough. -/
def visitFit (heap : Heap) (totalAllocSize : Nat) : ChunkNode → Unit → Unit ⊕ Option Nat
  | .chunkHead, _ => .inr none
  | .chunk addr, _ =>
      if (heap.header addr).allocated = false ∧ (heap.header addr).size ≥ totalAllocSize then
        .inr (some addr)
      else if heap.nodes.next (.chunk addr) = .chunkHead then .inr none
      else .inl ()

/-- The header at an address is overwritten from this offset on. -/
def overwrite (heap : Heap) (addr offset : Nat) : Heap :=
  { heap with header := (heap.overlap addr offset).1, nodes := (heap.overlap addr offset).2 }

/-- Cut the new block off the front of a free chunk; the rest, possibly of size 0,
is a chunk of its own. -/
def split (heap : Heap) (chunk totalAllocSize : Nat) : Heap :=
  let next := (chunk + totalAllocSize) % 2 ^ 32
  let heap := heap.setAllocated next false
  let heap := heap.setSize next ((heap.header chunk).size - totalAllocSize)
  let heap := { heap with nodes := listInsertAfter heap.nodes (.chunk chunk) (.chunk next) }
  -- The size has wrapped, and `next` begins inside the header of `chunk`.
  let heap := if 0 < totalAllocSize ∧ totalAllocSize < chunkSize then
    heap.overwrite chunk totalAllocSize else heap
  let heap := heap.setAllocated chunk true
  heap.setSize chunk ((totalAllocSize + 2 ^ 32 - chunkSize) % 2 ^ 32)

def needPageNum (totalAllocSize : Nat) : Nat :=
  if totalAllocSize % pageSize > 0 then totalAllocSize / pageSize + 1 else totalAllocSize / pageSize

/-- Put a new run of pages at the end of the list. -/
def extend (heap : Heap) (size totalAllocSize newChunk : Nat) : Heap :=
  let heap := heap.setAllocated newChunk true
  let heap := heap.setSize newChunk size
  let heap := { heap with nodes := listInsertBefore heap.nodes .chunkHead (.chunk newChunk) }
  let remainMem := needPageNum totalAllocSize * pageSize - totalAllocSize
  if remainMem > chunkSize then
    let remainChunk := (newChunk + totalAllocSize) % 2 ^ 32
    let heap := heap.setAllocated remainChunk false
    let heap := heap.setSize remainChunk (remainMem - chunkSize)
    let heap := { heap with nodes := listInsertBefore heap.nodes .chunkHead (.chunk remainChunk) }
    if totalAllocSize < chunkSize then heap.overwrite newChunk totalAllocSize else heap
  else heap

/-- The chunk that serves a request: one on the list, or `none` when new pages are
needed.  The outer `none` says that the search did not end within `fuel` rounds. -/
def search (fuel : Nat) (heap : Heap) (totalAllocSize : Nat) : Option (Option Nat) :=
  loop (walk heap.nodes .chunkHead (heap.visitFit totalAllocSize) fun _ => none) fuel
    (heap.nodes.next .chunkHead, ())

/-- The heap and the address returned. `run` is what `pg_to_addr_la(alloc_page(..))`
gives when the list cannot serve the request. -/
def malloc (fuel : Nat) (heap : Heap) (size run : Nat) : Option (Heap × Nat) :=
  let totalAllocSize := (chunkSize + size) % 2 ^ 32
  (heap.search fuel totalAllocSize).map fun found =>
    match found with
    | some chunk => (heap.split chunk totalAllocSize, (chunk + chunkSize) % 2 ^ 32)
    | none => (heap.extend size totalAllocSize run, (run + chunkSize) % 2 ^ 32)

/-- `(u32)chunk + sizeof(struct Chunk) + chunk->size`. -/
def stop (heap : Heap) (chunk : Nat) : Nat :=
  (chunk + chunkSize + (heap.header chunk).size) % 2 ^ 32

/-- Merge a freed chunk into its predecessor; the chunk that holds it afterwards. -/
def mergePrev (heap : Heap) (chunk thisSize : Nat) : ChunkNode → Heap × Nat
  | .chunkHead => (heap, chunk)
  | .chunk prev =>
      if (heap.header prev).allocated = false ∧ heap.stop prev = chunk then
        let heap := { heap with nodes := listDelete heap.nodes (.chunk chunk) }
        (heap.setSize prev ((heap.header prev).size + (thisSize + chunkSize)), prev)
      else (heap, chunk)

def mergeNext (heap : Heap) (chunk : Nat) : ChunkNode → Heap
  | .chunkHead => heap
  | .chunk next =>
      if (heap.header next).allocated = false ∧ heap.stop chunk = next then
        let heap := { heap with nodes := listDelete heap.nodes (.chunk next) }
        heap.setSize chunk ((heap.header chunk).size + ((heap.header next).size + chunkSize))
      else heap

/-- Both neighbours are read before the first merge. -/
def free (heap : Heap) (addr : Nat) : Heap :=
  let chunk := (addr + 2 ^ 32 - chunkSize) % 2 ^ 32
  let heap := heap.setAllocated chunk false
  let thisSize := (heap.header chunk).size
  let prev := heap.nodes.prev (.chunk chunk)
  let next := heap.nodes.next (.chunk chunk)
  let merged := heap.mergePrev chunk thisSize prev
  merged.1.mergeNext merged.2 next

end Heap

/-- A chunk of the list with what its header says. -/
structure Chunk where
  addr : Nat
  allocated : Bool
  size : Nat
deriving DecidableEq, Repr

namespace Chunk

def stop (chunk : Chunk) : Nat := chunk.addr + chunkSize + chunk.size

def Free (chunk : Chunk) : Prop := chunk.allocated = false

/-- The chunk's interval, header included. -/
def Holds : Chunk → Nat → Prop := Between addr stop

def node (chunk : Chunk) : ChunkNode := .chunk chunk.addr

/-- The chunk lies above `VERTUAL_MEM`, and does not reach past the last address. -/
structure Bounded (chunk : Chunk) : Prop where
  lower : vertualMem ≤ chunk.addr
  upper : chunk.stop ≤ 2 ^ 32

theorem Bounded.size_lt {chunk : Chunk} (bounded : chunk.Bounded) : chunk.size < 2 ^ 31 := by
  have lower := bounded.lower
  have upper := bounded.upper
  simp only [vertualMem, stop] at lower upper
  omega

end Chunk

structure Heap.Represents (heap : Heap) (chunks : List Chunk) : Prop where
  ring : heap.nodes.IsRing .chunkHead (chunks.map Chunk.node)
  header : ∀ chunk ∈ chunks, heap.header chunk.addr = { allocated := chunk.allocated, size := chunk.size }

namespace Heap

variable {heap : Heap} {chunks front back : List Chunk} {chunk new : Chunk}
variable {fuel size totalAllocSize run : Nat}

theorem mallocInit_represents (header : Nat → Header) (nodes : Links ChunkNode) :
    (mallocInit header nodes).Represents [] :=
  ⟨listInit_ring, by simp⟩

theorem Represents.addr_injective (represents : heap.Represents chunks) {first second : Chunk}
    (inFirst : first ∈ chunks) (inSecond : second ∈ chunks) (same : first.addr = second.addr) :
    first = second := by
  have nodup := (List.nodup_cons.mp represents.ring.nodup).2
  exact List.inj_on_of_nodup_map nodup inFirst inSecond (congrArg ChunkNode.chunk same)

/-- The memory determines the list. -/
theorem Represents.unique {other : List Chunk} (represents : heap.Represents chunks)
    (again : heap.Represents other) : chunks = other := by
  have nodes := represents.ring.unique again.ring
  have first := represents.header
  have second := again.header
  clear represents again
  induction chunks generalizing other with
  | nil => exact (List.map_eq_nil_iff.mp nodes.symm).symm
  | cons chunk chunks ih =>
      cases other with
      | nil => simp at nodes
      | cons chunk' other =>
          obtain ⟨node, rest⟩ := List.cons.inj nodes
          have addr : chunk.addr = chunk'.addr := ChunkNode.chunk.inj node
          have here := first chunk (by simp)
          rw [addr, second chunk' (by simp), Header.mk.injEq] at here
          have same : chunk = chunk' := by
            cases chunk
            cases chunk'
            simp_all
          rw [same, ih rest (fun x member => first x (List.mem_cons_of_mem _ member))
            (fun x member => second x (List.mem_cons_of_mem _ member))]

theorem Represents.nodup (represents : heap.Represents chunks) : chunks.Nodup :=
  List.Nodup.of_map Chunk.node (List.nodup_cons.mp represents.ring.nodup).2

theorem Represents.addr_ne (represents : heap.Represents (front ++ chunk :: back)) :
    ∀ other ∈ front ++ back, other.addr ≠ chunk.addr := by
  intro other member same
  have nodup := represents.nodup
  have equal := represents.addr_injective (by grind) (by simp) same
  subst equal
  grind

theorem Represents.write {header : Header}
    (represents : heap.Represents (front ++ chunk :: back)) :
    Represents { heap with header := Function.update heap.header chunk.addr header }
      (front ++ { chunk with allocated := header.allocated, size := header.size } :: back) := by
  have different := represents.addr_ne
  refine ⟨by simpa [Chunk.node] using represents.ring, ?_⟩
  intro other member
  by_cases same : other.addr = chunk.addr
  · have place : other = { chunk with allocated := header.allocated, size := header.size } := by
      grind
    subst place
    simp
  · simp only [Function.update_of_ne same]
    exact represents.header other (by grind)

theorem Represents.setAllocated (represents : heap.Represents (front ++ chunk :: back))
    (allocated : Bool) :
    (heap.setAllocated chunk.addr allocated).Represents
      (front ++ { chunk with allocated } :: back) := by
  have header := represents.header chunk (by simp)
  have written := @Represents.write _ _ _ _ { heap.header chunk.addr with allocated } represents
  simpa only [Heap.setAllocated, header] using written

theorem Represents.setSize (represents : heap.Represents (front ++ chunk :: back)) (size : Nat)
    (fits : size < 2 ^ 31) :
    (heap.setSize chunk.addr size).Represents (front ++ { chunk with size } :: back) := by
  have header := represents.header chunk (by simp)
  have written := @Represents.write _ _ _ _
    { heap.header chunk.addr with size := size % 2 ^ 31 } represents
  simpa only [Heap.setSize, header, Nat.mod_eq_of_lt fits] using written

theorem new_header {addr size : Nat} (heap : Heap) (allocated : Bool) (fits : size < 2 ^ 31) :
    ((heap.setAllocated addr allocated).setSize addr size).header addr = { allocated, size } := by
  simp only [setSize, Heap.setAllocated, Function.update_self, Nat.mod_eq_of_lt fits]

/-- Writing a header that is on no list. -/
theorem Represents.write_fresh {addr : Nat} {header : Header} (represents : heap.Represents chunks)
    (fresh : ∀ chunk ∈ chunks, chunk.addr ≠ addr) :
    Represents { heap with header := Function.update heap.header addr header } chunks := by
  refine ⟨represents.ring, ?_⟩
  intro chunk member
  simp only [Function.update_of_ne (fresh chunk member)]
  exact represents.header chunk member

theorem Represents.setAllocated_fresh {addr : Nat} (represents : heap.Represents chunks)
    (allocated : Bool) (fresh : ∀ chunk ∈ chunks, chunk.addr ≠ addr) :
    (heap.setAllocated addr allocated).Represents chunks :=
  represents.write_fresh fresh

theorem Represents.setSize_fresh {addr : Nat} (represents : heap.Represents chunks) (size : Nat)
    (fresh : ∀ chunk ∈ chunks, chunk.addr ≠ addr) : (heap.setSize addr size).Represents chunks :=
  represents.write_fresh fresh

theorem node_fresh (fresh : ∀ chunk ∈ chunks, chunk.addr ≠ new.addr) :
    new.node ∉ ChunkNode.chunkHead :: chunks.map Chunk.node := by
  intro member
  simp only [List.mem_cons, Chunk.node, reduceCtorEq, List.mem_map, ChunkNode.chunk.injEq,
    false_or] at member
  obtain ⟨chunk, inside, same⟩ := member
  exact fresh chunk inside same

theorem Represents.insert_after (represents : heap.Represents (front ++ chunk :: back)) (new : Chunk)
    (fresh : ∀ other ∈ front ++ chunk :: back, other.addr ≠ new.addr)
    (header : heap.header new.addr = { allocated := new.allocated, size := new.size }) :
    Represents { heap with nodes := listInsertAfter heap.nodes (.chunk chunk.addr) (.chunk new.addr) }
      (front ++ chunk :: new :: back) := by
  refine ⟨?_, ?_⟩
  · have ring := represents.ring
    have outside := node_fresh fresh
    rw [List.map_append, List.map_cons] at ring outside
    have inserted := listInsertAfter_ring ring outside
    simpa [Chunk.node] using inserted
  · intro other member
    by_cases same : other = new
    · subst same
      exact header
    · exact represents.header other (by grind)

theorem Represents.insert_last (represents : heap.Represents chunks) (new : Chunk)
    (fresh : ∀ other ∈ chunks, other.addr ≠ new.addr)
    (header : heap.header new.addr = { allocated := new.allocated, size := new.size }) :
    Represents { heap with nodes := listInsertBefore heap.nodes .chunkHead (.chunk new.addr) }
      (chunks ++ [new]) := by
  refine ⟨?_, ?_⟩
  · have inserted := listInsertBefore_head_ring represents.ring (node_fresh fresh)
    simpa [Chunk.node] using inserted
  · intro other member
    by_cases same : other = new
    · subst same
      exact header
    · exact represents.header other (by grind)

theorem Represents.delete (represents : heap.Represents (front ++ chunk :: back)) :
    Represents { heap with nodes := listDelete heap.nodes (.chunk chunk.addr) } (front ++ back) := by
  refine ⟨?_, fun other member => represents.header other (by grind)⟩
  have ring := represents.ring
  rw [List.map_append, List.map_cons] at ring
  have deleted := listDelete_ring ring
  simpa [Chunk.node] using deleted

/-- A chunk that `malloc` takes. -/
def Fits (totalAllocSize : Nat) (chunk : Chunk) : Bool :=
  !chunk.allocated && decide (chunk.size ≥ totalAllocSize)

theorem scan_fit (represents : heap.Represents (front ++ back)) :
    scan (heap.visitFit totalAllocSize) (fun _ => none) (back.map Chunk.node) () =
      (back.find? (Fits totalAllocSize)).map Chunk.addr := by
  induction back generalizing front with
  | nil => rfl
  | cons chunk back ih =>
      have header := represents.header chunk (by simp)
      have ring := represents.ring
      rw [List.map_append, List.map_cons] at ring
      have next : heap.nodes.next (.chunk chunk.addr) = (back.map Chunk.node).headD .chunkHead :=
        ring.next_member
      cases fits : Fits totalAllocSize chunk with
      | true =>
          have taken : chunk.allocated = false ∧ chunk.size ≥ totalAllocSize := by
            simpa [Fits] using fits
          simp [scan, Chunk.node, visitFit, header, taken, fits]
      | false =>
          have passed : ¬ (chunk.allocated = false ∧ chunk.size ≥ totalAllocSize) := by
            simpa [Fits] using fits
          rw [List.map_cons, scan, List.find?_cons_of_neg (by simp [fits])]
          simp only [Chunk.node, visitFit, header, if_neg passed, next]
          cases back with
          | nil => rfl
          | cons other back =>
              have more : (List.map Chunk.node (other :: back)).headD .chunkHead ≠ .chunkHead := by
                simp [Chunk.node]
              rw [if_neg more]
              exact @ih (front ++ [chunk]) (by simpa using represents)

theorem search_eq (represents : heap.Represents chunks) (enough : chunks.length < fuel) :
    heap.search fuel totalAllocSize =
      some ((chunks.find? (Fits totalAllocSize)).map Chunk.addr) := by
  rw [search, loop_walk_ring represents.ring () (by simpa using enough)]
  rw [@scan_fit heap [] chunks totalAllocSize represents]

/-- The two chunks that a free one is split into. -/
def splitChunk (chunk : Chunk) (size : Nat) : List Chunk :=
  [{ addr := chunk.addr, allocated := true, size },
    { addr := chunk.addr + (chunkSize + size), allocated := false,
      size := chunk.size - (chunkSize + size) }]

theorem split_represents (represents : heap.Represents (front ++ chunk :: back))
    (bounded : chunk.Bounded) (fits : chunkSize + size ≤ chunk.size)
    (fresh : ∀ other ∈ front ++ chunk :: back, other.addr ≠ chunk.addr + (chunkSize + size)) :
    (heap.split chunk.addr (chunkSize + size)).Represents
      (front ++ (splitChunk chunk size ++ back)) := by
  have lower := bounded.lower
  have upper := bounded.upper
  simp only [vertualMem, Chunk.stop] at lower upper
  have next : (chunk.addr + (chunkSize + size)) % 2 ^ 32 = chunk.addr + (chunkSize + size) :=
    Nat.mod_eq_of_lt (by simp only [chunkSize] at *; omega)
  have small : chunk.size - (chunkSize + size) < 2 ^ 31 := by
    simp only [chunkSize] at *
    omega
  have different : chunk.addr ≠ chunk.addr + (chunkSize + size) := fresh chunk (by simp)
  have header := represents.header chunk (by simp)
  have step := represents.setAllocated_fresh false fresh
  have sized := step.setSize_fresh (chunk.size - (chunkSize + size)) fresh
  have inserted := sized.insert_after
    { addr := chunk.addr + (chunkSize + size), allocated := false,
      size := chunk.size - (chunkSize + size) } fresh
    (new_header _ _ small)
  have taken := inserted.setAllocated true
  have done := taken.setSize (chunkSize + size - chunkSize)
    (by simp only [chunkSize] at *; omega)
  have sizeBefore : ((heap.setAllocated (chunk.addr + (chunkSize + size)) false).header
      chunk.addr).size = chunk.size := by
    simp only [Heap.setAllocated, Function.update_of_ne different, header]
  have whole : ¬ (0 < chunkSize + size ∧ chunkSize + size < chunkSize) := by omega
  have unwrapped : (chunkSize + size + 2 ^ 32 - chunkSize) % 2 ^ 32 = chunkSize + size - chunkSize := by
    simp only [chunkSize] at *
    omega
  simp only [split, next, sizeBefore, if_neg whole, unwrapped]
  simpa [splitChunk] using done

/-- The chunks that a new run of pages is made into. -/
def newChunks (run size : Nat) : List Chunk :=
  { addr := run, allocated := true, size } ::
    if needPageNum (chunkSize + size) * pageSize - (chunkSize + size) > chunkSize then
      [{ addr := run + (chunkSize + size), allocated := false,
         size := needPageNum (chunkSize + size) * pageSize - (chunkSize + size) - chunkSize }]
    else []

theorem needPageNum_bounds (totalAllocSize : Nat) :
    totalAllocSize ≤ needPageNum totalAllocSize * pageSize ∧
      needPageNum totalAllocSize * pageSize < totalAllocSize + pageSize := by
  by_cases rest : totalAllocSize % pageSize > 0
  · simp only [needPageNum, if_pos rest]
    simp only [pageSize] at *
    omega
  · simp only [needPageNum, if_neg rest]
    simp only [pageSize] at *
    omega

theorem extend_represents (represents : heap.Represents chunks) (small : size < 2 ^ 31)
    (upper : run + needPageNum (chunkSize + size) * pageSize ≤ 2 ^ 32)
    (freshRun : ∀ other ∈ chunks, other.addr ≠ run)
    (freshRest : chunkSize + size < needPageNum (chunkSize + size) * pageSize →
      ∀ other ∈ chunks, other.addr ≠ run + (chunkSize + size)) :
    (heap.extend size (chunkSize + size) run).Represents (chunks ++ newChunks run size) := by
  obtain ⟨enough, short⟩ := needPageNum_bounds (chunkSize + size)
  have step := represents.setAllocated_fresh true freshRun
  have sized := step.setSize_fresh size freshRun
  have inserted := sized.insert_last { addr := run, allocated := true, size } freshRun
    (new_header _ _ small)
  simp only [extend, newChunks]
  by_cases room : needPageNum (chunkSize + size) * pageSize - (chunkSize + size) > chunkSize
  · have next : (run + (chunkSize + size)) % 2 ^ 32 = run + (chunkSize + size) :=
      Nat.mod_eq_of_lt (by omega)
    have rest : needPageNum (chunkSize + size) * pageSize - (chunkSize + size) - chunkSize <
        2 ^ 31 := by
      simp only [pageSize] at *
      omega
    have fresh : ∀ other ∈ chunks ++ [{ addr := run, allocated := true, size : Chunk }],
        other.addr ≠ run + (chunkSize + size) := by
      intro other member
      obtain old | last := List.mem_append.mp member
      · exact freshRest (by omega) other old
      · rw [List.mem_singleton.mp last]
        simp only [chunkSize]
        omega
    have second := (inserted.setAllocated_fresh false fresh).setSize_fresh
      (needPageNum (chunkSize + size) * pageSize - (chunkSize + size) - chunkSize) fresh
    have done := second.insert_last
      { addr := run + (chunkSize + size), allocated := false,
        size := needPageNum (chunkSize + size) * pageSize - (chunkSize + size) - chunkSize }
      fresh (new_header _ _ rest)
    have whole : ¬ chunkSize + size < chunkSize := by omega
    simp only [if_pos room, next, if_neg whole]
    simpa using done
  · simp only [if_neg room]
    exact inserted

/-! ### free -/

/-- Two neighbours in one. -/
def join (first second : Chunk) : Chunk :=
  { first with size := first.size + (second.size + chunkSize) }

theorem join_stop {first second : Chunk} (meets : first.stop = second.addr) :
    (join first second).stop = second.stop := by
  simp only [join, Chunk.stop] at *
  omega

theorem join_bounded {first second : Chunk} (boundedFirst : first.Bounded)
    (boundedSecond : second.Bounded) (meets : first.stop = second.addr) :
    (join first second).Bounded :=
  ⟨boundedFirst.lower, join_stop meets ▸ boundedSecond.upper⟩

/-- With both chunks below the last address, the machine's comparison of addresses
is the comparison of the chunks' ends. -/
theorem stop_eq_iff {first second : Chunk} (header : heap.header first.addr =
      { allocated := first.allocated, size := first.size })
    (boundedFirst : first.Bounded) (boundedSecond : second.Bounded) :
    heap.stop first.addr = second.addr ↔ first.stop = second.addr := by
  have upper := boundedFirst.upper
  have lower := boundedSecond.lower
  have below := boundedSecond.upper
  simp only [stop, header, vertualMem, Chunk.stop, chunkSize] at *
  omega

/-- The chunk takes in the free chunk that begins where it ends. -/
theorem mergeNext_joins {next : Chunk} {rest : List Chunk}
    (represents : heap.Represents (front ++ chunk :: next :: rest)) (nextFree : next.Free)
    (meets : heap.stop chunk.addr = next.addr) (small : (join chunk next).size < 2 ^ 31) :
    (heap.mergeNext chunk.addr (.chunk next.addr)).Represents (front ++ join chunk next :: rest) := by
  have header := represents.header chunk (by simp)
  have headerNext := represents.header next (by simp)
  have deleted := @Represents.delete heap (front ++ [chunk]) rest next (by simpa using represents)
  rw [List.append_assoc, List.singleton_append] at deleted
  have sized := deleted.setSize (chunk.size + (next.size + chunkSize)) small
  have taken : next.allocated = false ∧ heap.stop chunk.addr = next.addr := ⟨nextFree, meets⟩
  simpa only [mergeNext, headerNext, if_pos taken, header, join] using sized

/-- The free chunk takes in the one that begins where it ends. -/
theorem mergePrev_joins {prev : Chunk} (represents : heap.Represents (front ++ prev :: chunk :: back))
    (prevFree : prev.Free) (meets : heap.stop prev.addr = chunk.addr)
    (small : (join prev chunk).size < 2 ^ 31) :
    (heap.mergePrev chunk.addr chunk.size (.chunk prev.addr)).2 = prev.addr ∧
      (heap.mergePrev chunk.addr chunk.size (.chunk prev.addr)).1.Represents
        (front ++ join prev chunk :: back) := by
  have headerPrev := represents.header prev (by simp)
  have deleted := @Represents.delete heap (front ++ [prev]) back chunk (by simpa using represents)
  rw [List.append_assoc, List.singleton_append] at deleted
  have sized := deleted.setSize (prev.size + (chunk.size + chunkSize)) small
  have taken : prev.allocated = false ∧ heap.stop prev.addr = chunk.addr := ⟨prevFree, meets⟩
  constructor
  · simp only [mergePrev, headerPrev, if_pos taken]
  · simpa only [mergePrev, headerPrev, if_pos taken, join] using sized

theorem mergeNext_represents (represents : heap.Represents (front ++ chunk :: back))
    (isFree : chunk.Free) (bounded : ∀ other ∈ front ++ chunk :: back, other.Bounded)
    (coalescedFront : Coalesced Chunk.addr Chunk.stop Chunk.Free (front ++ [chunk]))
    (coalescedBack : Coalesced Chunk.addr Chunk.stop Chunk.Free back) :
    ∃ right rest merged, back = right ++ rest ∧ (∀ other ∈ right, other.Free) ∧
      merged.Free ∧ merged.Bounded ∧ merged.addr = chunk.addr ∧
      Tiles Chunk.addr Chunk.stop merged.addr (chunk :: right) merged.stop ∧
      (heap.mergeNext chunk.addr ((back.map Chunk.node).headD .chunkHead)).Represents
        (front ++ merged :: rest) ∧
      Coalesced Chunk.addr Chunk.stop Chunk.Free (front ++ merged :: rest) := by
  have header := represents.header chunk (by simp)
  have boundedChunk := bounded chunk (by simp)
  cases back with
  | nil =>
      exact ⟨[], [], chunk, rfl, by simp, isFree, boundedChunk, rfl,
        tiles_singleton.mpr ⟨rfl, rfl⟩, represents, coalescedFront⟩
  | cons next rest =>
      have headerNext := represents.header next (by simp)
      have boundedNext := bounded next (by simp)
      have same := stop_eq_iff header boundedChunk boundedNext
      by_cases joins : next.Free ∧ chunk.stop = next.addr
      · obtain ⟨nextFree, meets⟩ := joins
        have boundedJoin := join_bounded boundedChunk boundedNext meets
        have stop := join_stop meets
        refine ⟨[next], rest, join chunk next, rfl, by simpa using nextFree, isFree, boundedJoin,
          rfl, ⟨rfl, meets.symm, stop.symm⟩, ?_, coalesced_split.mpr ⟨?_, ?_⟩⟩
        · exact mergeNext_joins represents nextFree (same.mpr meets) boundedJoin.size_lt
        · exact coalescedFront.swap_last rfl (fun _ => isFree)
        · exact coalescedBack.swap_head stop (fun _ => nextFree)
      · refine ⟨[], next :: rest, chunk, rfl, by simp, isFree, boundedChunk, rfl,
          tiles_singleton.mpr ⟨rfl, rfl⟩, ?_, coalesced_split.mpr ⟨coalescedFront, ?_⟩⟩
        · have left : ¬ (next.allocated = false ∧ heap.stop chunk.addr = next.addr) :=
            fun both => joins ⟨both.1, same.mp both.2⟩
          simpa only [List.map_cons, List.headD_cons, Chunk.node, mergeNext, headerNext, if_neg left]
            using represents
        · refine List.isChain_cons_cons.mpr ⟨?_, coalescedBack⟩
          intro joinable
          exact joins ⟨joinable.2.1, joinable.2.2⟩

theorem mergePrev_represents (represents : heap.Represents (front ++ chunk :: back))
    (isFree : chunk.Free) (bounded : ∀ other ∈ front ++ chunk :: back, other.Bounded)
    (coalesced : Coalesced Chunk.addr Chunk.stop Chunk.Free front) :
    ∃ rest left merged, front = rest ++ left ∧ (∀ other ∈ left, other.Free) ∧
      merged.Free ∧ merged.Bounded ∧
      Tiles Chunk.addr Chunk.stop merged.addr (left ++ [chunk]) merged.stop ∧
      (heap.mergePrev chunk.addr chunk.size ((front.map Chunk.node).getLastD .chunkHead)).2 =
        merged.addr ∧
      (heap.mergePrev chunk.addr chunk.size
        ((front.map Chunk.node).getLastD .chunkHead)).1.Represents (rest ++ merged :: back) ∧
      Coalesced Chunk.addr Chunk.stop Chunk.Free (rest ++ [merged]) := by
  have header := represents.header chunk (by simp)
  have boundedChunk := bounded chunk (by simp)
  cases front using List.reverseRecOn with
  | nil =>
      exact ⟨[], [], chunk, rfl, by simp, isFree, boundedChunk, tiles_singleton.mpr ⟨rfl, rfl⟩, rfl,
        represents, List.isChain_singleton chunk⟩
  | append_singleton rest prev =>
      have headerPrev := represents.header prev (by simp)
      have boundedPrev := bounded prev (by simp)
      have same := stop_eq_iff headerPrev boundedPrev boundedChunk
      have last : ((rest ++ [prev]).map Chunk.node).getLastD .chunkHead = .chunk prev.addr := by
        simp [Chunk.node]
      rw [last]
      by_cases joins : prev.Free ∧ prev.stop = chunk.addr
      · obtain ⟨prevFree, meets⟩ := joins
        have boundedJoin := join_bounded boundedPrev boundedChunk meets
        rw [List.append_assoc, List.singleton_append] at represents
        obtain ⟨addr, joined⟩ :=
          mergePrev_joins represents prevFree (same.mpr meets) boundedJoin.size_lt
        exact ⟨rest, [prev], join prev chunk, rfl, by simpa using prevFree, prevFree, boundedJoin,
          ⟨rfl, meets.symm, (join_stop meets).symm⟩, addr, joined,
          coalesced.swap_last rfl (fun _ => prevFree)⟩
      · have left : ¬ (prev.allocated = false ∧ heap.stop prev.addr = chunk.addr) :=
          fun both => joins ⟨both.1, same.mp both.2⟩
        refine ⟨rest ++ [prev], [], chunk, by simp, by simp, isFree, boundedChunk,
          tiles_singleton.mpr ⟨rfl, rfl⟩, ?_, ?_, ?_⟩
        · simp only [mergePrev, headerPrev, if_neg left]
        · simpa only [mergePrev, headerPrev, if_neg left] using represents
        · refine List.isChain_append.mpr ⟨coalesced, List.isChain_singleton chunk, ?_⟩
          intro z lastZ w first joinable
          simp only [List.getLast?_append_cons, List.getLast?_singleton, Option.mem_some_iff,
            List.head?_cons] at lastZ first
          subst lastZ first
          exact joins ⟨joinable.1, joinable.2.2⟩

/-- The chunk is marked, and then joined with its neighbours on the list. -/
theorem free_eq (represents : heap.Represents (front ++ chunk :: back)) (below : chunk.addr < 2 ^ 32) :
    heap.free (chunk.addr + chunkSize) =
      ((heap.setAllocated chunk.addr false).mergePrev chunk.addr chunk.size
        ((front.map Chunk.node).getLastD .chunkHead)).1.mergeNext
      ((heap.setAllocated chunk.addr false).mergePrev chunk.addr chunk.size
        ((front.map Chunk.node).getLastD .chunkHead)).2 ((back.map Chunk.node).headD .chunkHead) := by
  have addr : (chunk.addr + chunkSize + 2 ^ 32 - chunkSize) % 2 ^ 32 = chunk.addr := by
    simp only [chunkSize]
    omega
  have ring := represents.ring
  rw [List.map_append, List.map_cons] at ring
  have prev : heap.nodes.prev (.chunk chunk.addr) = (front.map Chunk.node).getLastD .chunkHead :=
    ring.prev_member
  have next : heap.nodes.next (.chunk chunk.addr) = (back.map Chunk.node).headD .chunkHead :=
    ring.next_member
  have header := (represents.setAllocated false).header { chunk with allocated := false } (by simp)
  simp only [free, addr, header]
  rw [show (heap.setAllocated chunk.addr false).nodes = heap.nodes from rfl, prev, next]

/-- A freed chunk is joined with the free neighbours it touches, and with all of
them: the list stays coalesced. -/
theorem free_represents (represents : heap.Represents (front ++ chunk :: back))
    (bounded : ∀ other ∈ front ++ chunk :: back, other.Bounded)
    (coalesced : Coalesced Chunk.addr Chunk.stop Chunk.Free (front ++ chunk :: back)) :
    ∃ rest left right behind merged, front = rest ++ left ∧ back = right ++ behind ∧
      (∀ other ∈ left ++ right, other.Free) ∧ merged.Free ∧ merged.Bounded ∧
      Tiles Chunk.addr Chunk.stop merged.addr (left ++ chunk :: right) merged.stop ∧
      (heap.free (chunk.addr + chunkSize)).Represents (rest ++ merged :: behind) ∧
      Coalesced Chunk.addr Chunk.stop Chunk.Free (rest ++ merged :: behind) := by
  have boundedChunk := bounded chunk (by simp)
  have below : chunk.addr < 2 ^ 32 := by
    have upper := boundedChunk.upper
    simp only [Chunk.stop, chunkSize] at upper
    omega
  have freed := free_eq represents below
  obtain ⟨coalescedFront, coalescedBack⟩ := coalesced_split.mp coalesced
  have marked := represents.setAllocated false
  have boundedMarked : ∀ other ∈ front ++ { chunk with allocated := false } :: back,
      other.Bounded := by
    intro other member
    by_cases same : other = { chunk with allocated := false }
    · subst same
      exact ⟨boundedChunk.lower, boundedChunk.upper⟩
    · exact bounded other (by grind)
  obtain ⟨rest, left, first, rfl, leftFree, firstFree, firstBounded, leftTiles, firstAddr,
    firstRepresents, firstCoalesced⟩ := mergePrev_represents marked rfl boundedMarked
      (List.isChain_append.mp coalescedFront).1
  have boundedFirst : ∀ other ∈ rest ++ first :: back, other.Bounded := by
    intro other member
    by_cases same : other = first
    · subst same
      exact firstBounded
    · exact boundedMarked other (by grind)
  obtain ⟨right, behind, merged, rfl, rightFree, mergedFree, mergedBounded, mergedAddr, rightTiles,
    mergedRepresents, mergedCoalesced⟩ := mergeNext_represents firstRepresents firstFree boundedFirst
      firstCoalesced coalescedBack.tail
  refine ⟨rest, left, right, behind, merged, rfl, rfl, ?_, mergedFree, mergedBounded, ?_, ?_,
    mergedCoalesced⟩
  · intro other member
    cases List.mem_append.mp member with
    | inl inLeft => exact leftFree other inLeft
    | inr inRight => exact rightFree other inRight
  · obtain ⟨middle, leftPart, chunkAddr, chunkStop⟩ := tiles_append.mp leftTiles
    rw [mergedAddr]
    exact tiles_append.mpr ⟨middle, leftPart, chunkAddr, chunkStop ▸ rightTiles.2⟩
  · rw [freed, firstAddr]
    exact mergedRepresents

end Heap

end WindOs.Mm
