import WindOs.Mm.Malloc

namespace WindOs.Mm

open Data

/-! # malloc taken back

What is left on the list of chunks when the block that `malloc` returned is freed at once.
-/

namespace Heap

variable {heap : Heap} {chunks front back rest : List Chunk} {chunk next prev : Chunk}
  {size run byte : Nat}

/-- The byte lies in a free chunk. -/
def Spare (chunks : List Chunk) (byte : Nat) : Prop :=
  ∃ chunk ∈ chunks, chunk.Free ∧ chunk.Holds byte

theorem spare_append : Spare (front ++ back) byte ↔ Spare front byte ∨ Spare back byte := by
  simp only [Spare, List.mem_append, or_and_right, exists_or]

theorem spare_singleton : Spare [chunk] byte ↔ chunk.Free ∧ chunk.Holds byte := by
  simp [Spare]

theorem Represents.stop_eq (represents : heap.Represents chunks) (member : chunk ∈ chunks) :
    heap.stop chunk.addr = chunk.stop % 2 ^ 32 := by
  rw [Heap.stop, represents.header chunk member]
  rfl

theorem freed_below (below : next.addr < 2 ^ 32) (meets : chunk.stop = next.addr) :
    chunk.addr < 2 ^ 32 ∧ chunk.stop % 2 ^ 32 = next.addr := by
  simp only [Chunk.stop] at meets ⊢
  omega

/-- Nothing free ends in front of the chunk, and something free begins behind it. -/
theorem free_joins_next (represents : heap.Represents (front ++ chunk :: next :: rest))
    (below : next.addr < 2 ^ 32) (nextFree : next.Free) (meets : chunk.stop = next.addr)
    (small : (join chunk next).size < 2 ^ 31)
    (alone : ∀ prev ∈ front.getLast?, ¬ (prev.Free ∧ prev.stop % 2 ^ 32 = chunk.addr)) :
    (heap.free (chunk.addr + chunkSize)).Represents
      (front ++ join { chunk with allocated := false } next :: rest) := by
  obtain ⟨chunkBelow, stop⟩ := freed_below below meets
  have marked := represents.setAllocated false
  have unmerged : (heap.setAllocated chunk.addr false).mergePrev chunk.addr chunk.size
      ((front.map Chunk.node).getLastD .chunkHead) = (heap.setAllocated chunk.addr false, chunk.addr) := by
    cases front using List.reverseRecOn with
    | nil => rfl
    | append_singleton before prev =>
        have last : ((before ++ [prev]).map Chunk.node).getLastD .chunkHead = .chunk prev.addr := by
          simp [Chunk.node]
        have header := marked.header prev (by simp)
        have prevStop := marked.stop_eq (show prev ∈ _ by simp)
        have left : ¬ (prev.allocated = false ∧
            (heap.setAllocated chunk.addr false).stop prev.addr = chunk.addr) := by
          rw [prevStop]
          exact alone prev (by simp)
        rw [last]
        simp only [mergePrev, header, if_neg left]
  rw [free_eq represents chunkBelow, unmerged]
  refine mergeNext_joins marked nextFree ?_ small
  rw [marked.stop_eq (show { chunk with allocated := false } ∈ _ by simp)]
  exact stop

/-- The chunk has a free one on either side. -/
theorem free_joins_both (represents : heap.Represents (front ++ prev :: chunk :: next :: rest))
    (below : next.addr < 2 ^ 32) (prevFree : prev.Free) (nextFree : next.Free)
    (meetsPrev : prev.stop = chunk.addr) (meets : chunk.stop = next.addr)
    (small : (join (join prev chunk) next).size < 2 ^ 31) :
    (heap.free (chunk.addr + chunkSize)).Represents
      (front ++ join (join prev { chunk with allocated := false }) next :: rest) := by
  obtain ⟨chunkBelow, -⟩ := freed_below below meets
  obtain ⟨-, prevStop⟩ := freed_below chunkBelow meetsPrev
  have split : front ++ prev :: chunk :: next :: rest = (front ++ [prev]) ++ chunk :: next :: rest := by
    simp
  have marked : (heap.setAllocated chunk.addr false).Represents
      (front ++ prev :: { chunk with allocated := false } :: next :: rest) := by
    rw [split] at represents
    simpa using represents.setAllocated false
  have last : ((front ++ [prev]).map Chunk.node).getLastD .chunkHead = .chunk prev.addr := by
    simp [Chunk.node]
  have meetsNow : (heap.setAllocated chunk.addr false).stop prev.addr = chunk.addr := by
    rw [marked.stop_eq (show prev ∈ _ by simp)]
    exact prevStop
  have smaller : (join prev { chunk with allocated := false }).size < 2 ^ 31 := by
    simp only [join] at small ⊢
    omega
  obtain ⟨addr, merged⟩ := mergePrev_joins marked prevFree meetsNow smaller
  rw [split] at represents
  rw [free_eq represents chunkBelow, last, addr]
  refine mergeNext_joins merged nextFree ?_ small
  have joinedStop : (join prev { chunk with allocated := false }).stop = chunk.stop :=
    join_stop meetsPrev
  rw [merged.stop_eq (show join prev { chunk with allocated := false } ∈ _ by simp), joinedStop]
  exact (freed_below below meets).2

/-- A chunk that was split is whole again. -/
theorem split_free (represents : heap.Represents (front ++ chunk :: back)) (isFree : chunk.Free)
    (bounded : ∀ other ∈ front ++ chunk :: back, other.Bounded)
    (coalesced : Coalesced Chunk.addr Chunk.stop Chunk.Free (front ++ chunk :: back))
    (fits : chunkSize + size ≤ chunk.size)
    (fresh : ∀ other ∈ front ++ chunk :: back, other.addr ≠ chunk.addr + (chunkSize + size)) :
    ((heap.split chunk.addr (chunkSize + size)).free (chunk.addr + chunkSize)).Represents
      (front ++ chunk :: back) := by
  have boundedChunk := bounded chunk (by simp)
  have upper := boundedChunk.upper
  have lower := boundedChunk.lower
  have narrow := boundedChunk.size_lt
  have divided := split_represents represents boundedChunk fits fresh
  have alone : ∀ prev ∈ front.getLast?, ¬ (prev.Free ∧ prev.stop % 2 ^ 32 = chunk.addr) := by
    rintro prev last ⟨prevFree, meets⟩
    have boundedPrev := bounded prev (by simp [List.mem_of_mem_getLast? last])
    have whole : prev.stop = chunk.addr := by
      have top := boundedPrev.upper
      simp only [vertualMem] at lower
      omega
    exact (List.isChain_append.mp coalesced).2.2 prev last chunk (by simp) ⟨prevFree, isFree, whole⟩
  have joined := @free_joins_next _ front back
    { addr := chunk.addr, allocated := true, size }
    { addr := chunk.addr + (chunkSize + size), allocated := false,
      size := chunk.size - (chunkSize + size) } divided
    (by simp only [Chunk.stop, chunkSize] at *; omega) rfl
    (by simp only [Chunk.stop]; omega) (by simp only [join]; omega) alone
  have same : join { addr := chunk.addr, allocated := false, size }
      { addr := chunk.addr + (chunkSize + size), allocated := false,
        size := chunk.size - (chunkSize + size) } = chunk := by
    have whole : size + (chunk.size - (chunkSize + size) + chunkSize) = chunk.size := by omega
    have flag : false = chunk.allocated := isFree.symm
    simp only [join, whole, flag]
  rw [same] at joined
  exact joined

/-- The run of pages as one free chunk. -/
def wholeRun (run size : Nat) : Chunk where
  addr := run
  allocated := false
  size := needPageNum (chunkSize + size) * pageSize - chunkSize

theorem spare_wholeRun : Spare [wholeRun run size] byte ↔
    run ≤ byte ∧ byte < run + needPageNum (chunkSize + size) * pageSize := by
  have enough := (needPageNum_bounds (chunkSize + size)).1
  simp only [spare_singleton, Chunk.Free, Chunk.Holds, Between, Chunk.stop, wholeRun, true_and]
  omega

theorem spare_join (meets : prev.stop = chunk.addr) (prevFree : prev.Free) (isFree : chunk.Free) :
    Spare [join prev chunk] byte ↔ Spare [prev] byte ∨ Spare [chunk] byte := by
  have stop := join_stop meets
  have ordered : prev.addr ≤ prev.stop := by
    simp only [Chunk.stop]
    omega
  have behind : chunk.addr ≤ chunk.stop := by
    simp only [Chunk.stop]
    omega
  have joinedFree : (join prev chunk).Free := prevFree
  have start : (join prev chunk).addr = prev.addr := rfl
  simp only [spare_singleton, prevFree, isFree, joinedFree, true_and, Chunk.Holds, Between, stop, start]
  omega

/-- A run of pages stays on the list, as free space.  It may lie behind the last chunk. -/
theorem extend_free (represents : heap.Represents chunks)
    (upper : run + needPageNum (chunkSize + size) * pageSize ≤ 2 ^ 32)
    (room : chunkSize < needPageNum (chunkSize + size) * pageSize - (chunkSize + size))
    (fresh : ∀ other ∈ chunks, ¬ (run ≤ other.addr ∧
      other.addr < run + needPageNum (chunkSize + size) * pageSize))
    (narrow : ∀ other ∈ chunks, other.stop < 2 ^ 32 ∧
      other.size + needPageNum (chunkSize + size) * pageSize < 2 ^ 31)
    (small : needPageNum (chunkSize + size) * pageSize < 2 ^ 31) :
    ∃ later, ((heap.extend size (chunkSize + size) run).free (run + chunkSize)).Represents later ∧
      (∀ byte, Spare later byte ↔ Spare chunks byte ∨
        run ≤ byte ∧ byte < run + needPageNum (chunkSize + size) * pageSize) ∧
      ∀ chunk, chunk.allocated = true → (chunk ∈ later ↔ chunk ∈ chunks) := by
  have enough := (needPageNum_bounds (chunkSize + size)).1
  have extended := extend_represents represents (by simp only [chunkSize] at *; omega) upper
    (fun other member same => fresh other member (by simp only [chunkSize] at *; omega))
    (fun _ other member same => fresh other member (by simp only [chunkSize] at *; omega))
  rw [newChunks, if_pos room] at extended
  have below : run + (chunkSize + size) < 2 ^ 32 := by omega
  have rejoined : join { addr := run, allocated := false, size }
      { addr := run + (chunkSize + size), allocated := false,
        size := needPageNum (chunkSize + size) * pageSize - (chunkSize + size) - chunkSize } =
      wholeRun run size := by
    have whole : size + (needPageNum (chunkSize + size) * pageSize - (chunkSize + size) - chunkSize +
        chunkSize) = needPageNum (chunkSize + size) * pageSize - chunkSize := by omega
    simp only [join, whole, wholeRun]
  by_cases touches : ∃ last ∈ chunks.getLast?, last.Free ∧ last.stop = run
  · obtain ⟨last, behind, lastFree, meets⟩ := touches
    obtain ⟨before, rfl⟩ := List.getLast?_eq_some_iff.mp behind
    have narrowLast := (narrow last (by simp)).2
    have grown : last.size + (size + chunkSize) +
        (needPageNum (chunkSize + size) * pageSize - (chunkSize + size) - chunkSize + chunkSize) =
        last.size + (needPageNum (chunkSize + size) * pageSize - chunkSize + chunkSize) := by omega
    have joined := @free_joins_both _ before []
      { addr := run, allocated := true, size }
      { addr := run + (chunkSize + size), allocated := false,
        size := needPageNum (chunkSize + size) * pageSize - (chunkSize + size) - chunkSize } last
      (by simpa using extended) below lastFree rfl meets (by simp only [Chunk.stop]; omega)
      (by simp only [join]; omega)
    refine ⟨before ++ [join last (wholeRun run size)], ?_, ?_, ?_⟩
    · simpa only [join, grown, wholeRun] using joined
    · intro byte
      have parts := @spare_join (wholeRun run size) last byte meets lastFree rfl
      rw [spare_append, spare_append, parts, spare_wholeRun, or_assoc]
    · intro chunk taken
      have notJoin : chunk ≠ join last (wholeRun run size) := by
        rintro rfl
        exact Bool.noConfusion (taken.symm.trans lastFree)
      have notLast : chunk ≠ last := by
        rintro rfl
        exact Bool.noConfusion (taken.symm.trans lastFree)
      simp [notJoin, notLast]
  · have joined := @free_joins_next _ chunks []
      { addr := run, allocated := true, size }
      { addr := run + (chunkSize + size), allocated := false,
        size := needPageNum (chunkSize + size) * pageSize - (chunkSize + size) - chunkSize }
      extended below rfl (by simp only [Chunk.stop]; omega) (by simp only [join]; omega) (by
        rintro last behind ⟨lastFree, meets⟩
        rw [Nat.mod_eq_of_lt (narrow last (List.mem_of_mem_getLast? behind)).1] at meets
        exact touches ⟨last, behind, lastFree, meets⟩)
    rw [rejoined] at joined
    refine ⟨_, joined, ?_, ?_⟩
    · intro byte
      rw [spare_append, spare_wholeRun]
    · intro chunk taken
      have notWhole : chunk ≠ wholeRun run size := by
        rintro rfl
        exact Bool.noConfusion taken
      simp [notWhole]

end Heap

end WindOs.Mm
