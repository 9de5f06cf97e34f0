import WindOs.Data.Machine
import WindOs.Mm.Malloc

namespace WindOs.Mm

open Data

/-! # The chunks tile the pages

What `malloc` and `free` may be called with, which pages `alloc_page` may return,
and what holds of the chunk list after every sequence of calls.
-/

/-- A run of pages as `alloc_page` returned it. -/
structure PageRun where
  base : Nat
  pages : Nat
deriving DecidableEq, Repr

namespace PageRun

def stop (run : PageRun) : Nat := run.base + run.pages * pageSize

def Holds (run : PageRun) (byte : Nat) : Prop := run.base ≤ byte ∧ byte < run.stop

/-- Page-aligned, above `VERTUAL_MEM`, apart from the runs returned before, and at
most `MAX_PAGE_NUM` pages together with them. -/
structure Fresh (runs : List PageRun) (run : PageRun) : Prop where
  aligned : run.base % pageSize = 0
  lower : vertualMem ≤ run.base
  upper : run.stop ≤ 2 ^ 32
  apart : ∀ other ∈ runs, other.stop ≤ run.base ∨ run.stop ≤ other.base
  total : (runs.map pages).sum + run.pages ≤ maxPageNum

instance (runs : List PageRun) (run : PageRun) : Decidable (Fresh runs run) :=
  decidable_of_iff
    (run.base % pageSize = 0 ∧ vertualMem ≤ run.base ∧ run.stop ≤ 2 ^ 32 ∧
      (∀ other ∈ runs, other.stop ≤ run.base ∨ run.stop ≤ other.base) ∧
      (runs.map pages).sum + run.pages ≤ maxPageNum)
    ⟨fun ⟨aligned, lower, upper, apart, total⟩ => ⟨aligned, lower, upper, apart, total⟩,
      fun ⟨aligned, lower, upper, apart, total⟩ => ⟨aligned, lower, upper, apart, total⟩⟩

end PageRun

/-- The heap with the runs it has been given and the blocks that are outstanding:
the address `malloc` returned and the number of bytes asked for. -/
structure HeapState where
  heap : Heap
  runs : List PageRun
  blocks : List (Nat × Nat)

/-- `run` is the address of the pages that `alloc_page` returns if it is called. -/
inductive HeapOp where
  | malloc (size run : Nat)
  | free (addr : Nat)
deriving DecidableEq, Repr

namespace HeapState

/-- More rounds than there are addresses. -/
def searchFuel : Nat := 2 ^ 32 + 1

def step (state : HeapState) : HeapOp → Option HeapState
  | .malloc size run =>
      if chunkSize + size < 2 ^ 31 then
        match state.heap.search searchFuel (chunkSize + size) with
        | none => none
        | some (some _) =>
            (state.heap.malloc searchFuel size run).map fun result =>
              { state with heap := result.1, blocks := (result.2, size) :: state.blocks }
        | some none =>
            let pages := { base := run, pages := Heap.needPageNum (chunkSize + size) }
            if PageRun.Fresh state.runs pages then
              (state.heap.malloc searchFuel size run).map fun result =>
                { heap := result.1, runs := pages :: state.runs,
                  blocks := (result.2, size) :: state.blocks }
            else none
      else none
  | .free addr =>
      match state.blocks.find? fun block => block.1 = addr with
      | some block =>
          some { state with heap := state.heap.free addr, blocks := state.blocks.erase block }
      | none => none

def machine : Machine HeapState HeapOp where
  start state := ∃ header nodes,
    state = { heap := Heap.mallocInit header nodes, runs := [], blocks := [] }
  step := step

/-! ## The invariant -/

/-- `slack` is how many bytes at the end of each run are in no chunk. -/
structure Sound (state : HeapState) (chunks : List Chunk) (slack : PageRun → Nat) : Prop where
  represents : state.heap.Represents chunks
  bounded : ∀ chunk ∈ chunks, chunk.Bounded
  apart : Apart Chunk.Holds chunks
  coalesced : Coalesced Chunk.addr Chunk.stop Chunk.Free chunks
  runs : state.runs.Pairwise fun first second =>
    first.stop ≤ second.base ∨ second.stop ≤ first.base
  slack_le : ∀ run ∈ state.runs, slack run ≤ chunkSize ∧ slack run ≤ run.pages * pageSize
  covered : ∀ byte, Covered Chunk.Holds chunks byte ↔
    ∃ run ∈ state.runs, run.base ≤ byte ∧ byte + slack run < run.stop
  blocks : ∀ block ∈ state.blocks, ∃ chunk ∈ chunks, chunk.allocated = true ∧
    chunk.addr + chunkSize = block.1 ∧ chunk.size = block.2
  distinct : (state.blocks.map Prod.fst).Nodup

/-- What one step does to the list of chunks. -/
inductive Change (state : HeapState) (chunks : List Chunk) (after : HeapState) :
    HeapOp → List Chunk → Prop where
  | serve {front back : List Chunk} {chunk : Chunk} {size run : Nat}
      (split : chunks = front ++ chunk :: back) (isFree : chunk.Free)
      (fits : chunkSize + size ≤ chunk.size)
      (runs : after.runs = state.runs)
      (blocks : after.blocks = (chunk.addr + chunkSize, size) :: state.blocks) :
      Change state chunks after (.malloc size run) (front ++ (Heap.splitChunk chunk size ++ back))
  | extend {size run : Nat}
      (fresh : PageRun.Fresh state.runs { base := run, pages := Heap.needPageNum (chunkSize + size) })
      (runs : after.runs = { base := run, pages := Heap.needPageNum (chunkSize + size) } :: state.runs)
      (blocks : after.blocks = (run + chunkSize, size) :: state.blocks) :
      Change state chunks after (.malloc size run) (chunks ++ Heap.newChunks run size)
  | free {rest left right behind : List Chunk} {chunk merged : Chunk}
      (split : chunks = rest ++ (left ++ chunk :: right) ++ behind)
      (taken : chunk.allocated = true)
      (neighbours : ∀ other ∈ left ++ right, other.Free) (isFree : merged.Free)
      (tiles : Tiles Chunk.addr Chunk.stop merged.addr (left ++ chunk :: right) merged.stop)
      (runs : after.runs = state.runs)
      (block : (chunk.addr + chunkSize, chunk.size) ∈ state.blocks)
      (blocks : after.blocks = state.blocks.erase (chunk.addr + chunkSize, chunk.size)) :
      Change state chunks after (.free (chunk.addr + chunkSize)) (rest ++ merged :: behind)

variable {state after : HeapState} {chunks later : List Chunk} {slack : PageRun → Nat} {op : HeapOp}

theorem holds_addr (chunk : Chunk) : chunk.Holds chunk.addr := by
  simp only [Chunk.Holds, Between, Chunk.stop, chunkSize]
  omega

theorem Sound.enough (sound : state.Sound chunks slack) : chunks.length < searchFuel := by
  have nodup : (chunks.map Chunk.addr).Nodup := by
    refine List.Nodup.map_on ?_ sound.represents.nodup
    intro first inFirst second inSecond same
    exact sound.represents.addr_injective inFirst inSecond same
  have below : chunks.map Chunk.addr ⊆ List.range (2 ^ 32) := by
    intro addr member
    obtain ⟨chunk, inside, rfl⟩ := List.mem_map.mp member
    have upper := (sound.bounded chunk inside).upper
    simp only [Chunk.stop, chunkSize] at upper
    rw [List.mem_range]
    omega
  have short := (nodup.subperm below).length_le
  rw [List.length_map, List.length_range] at short
  rw [searchFuel]
  omega

/-- No header lies inside a chunk that is split there. -/
theorem split_fresh {chunk other : Chunk} {size : Nat} (apart : Apart Chunk.Holds chunks)
    (member : chunk ∈ chunks) (inside : other ∈ chunks) (fits : chunkSize + size ≤ chunk.size) :
    other.addr ≠ chunk.addr + (chunkSize + size) := by
  intro same
  have both : chunk.Holds other.addr := by
    simp only [Chunk.Holds, Between, Chunk.stop, chunkSize] at *
    omega
  have equal := apart.unique member inside both (holds_addr other)
  subst equal
  simp only [chunkSize] at same
  omega

/-- No header lies inside a run of pages that is fresh. -/
theorem Sound.run_fresh {run : PageRun} {other : Chunk} (sound : state.Sound chunks slack)
    (fresh : run.Fresh state.runs) (inside : other ∈ chunks) : ¬ run.Holds other.addr := by
  intro held
  obtain ⟨old, member, lower, upper⟩ := (sound.covered other.addr).mp ⟨other, inside, holds_addr other⟩
  have apart := fresh.apart old member
  simp only [PageRun.Holds] at held
  omega

theorem coalesced_serve {front back : List Chunk} {chunk : Chunk} {size : Nat}
    (coalesced : Coalesced Chunk.addr Chunk.stop Chunk.Free (front ++ chunk :: back))
    (isFree : chunk.Free) (fits : chunkSize + size ≤ chunk.size) :
    Coalesced Chunk.addr Chunk.stop Chunk.Free (front ++ (Heap.splitChunk chunk size ++ back)) := by
  obtain ⟨before, behind⟩ := coalesced_split.mp coalesced
  refine coalesced_split.mpr ⟨before.swap_last rfl (fun _ => isFree), ?_⟩
  refine List.isChain_cons_cons.mpr ⟨fun joinable => ?_, behind.swap_head ?_ (fun _ => isFree)⟩
  · exact Bool.noConfusion joinable.1
  · simp only [Chunk.stop, chunkSize] at *
    omega

theorem coalesced_extend {size run : Nat}
    (coalesced : Coalesced Chunk.addr Chunk.stop Chunk.Free chunks) :
    Coalesced Chunk.addr Chunk.stop Chunk.Free (chunks ++ Heap.newChunks run size) := by
  refine List.isChain_append.mpr ⟨coalesced, ?_, ?_⟩
  · simp only [Heap.newChunks]
    split
    · exact List.isChain_cons_cons.mpr ⟨fun joinable => Bool.noConfusion joinable.1, by simp⟩
    · simp
  · intro first _ second head joinable
    simp only [Heap.newChunks, List.head?_cons, Option.mem_some_iff] at head
    subst head
    exact Bool.noConfusion joinable.2.1

theorem splitChunk_bounded {chunk other : Chunk} {size : Nat} (bounded : chunk.Bounded)
    (fits : chunkSize + size ≤ chunk.size) (member : other ∈ Heap.splitChunk chunk size) :
    other.Bounded := by
  have lower := bounded.lower
  have upper := bounded.upper
  simp only [Heap.splitChunk, List.mem_cons, List.not_mem_nil, or_false] at member
  obtain rfl | rfl := member
  · constructor <;> simp only [Chunk.stop, chunkSize] at * <;> omega
  · constructor <;> simp only [Chunk.stop, chunkSize] at * <;> omega

theorem newChunks_bounded {other : Chunk} {size run : Nat} (lower : vertualMem ≤ run)
    (upper : run + Heap.needPageNum (chunkSize + size) * pageSize ≤ 2 ^ 32)
    (member : other ∈ Heap.newChunks run size) : other.Bounded := by
  obtain ⟨enough, _⟩ := Heap.needPageNum_bounds (chunkSize + size)
  simp only [Heap.newChunks, List.mem_cons] at member
  obtain rfl | rest := member
  · exact ⟨lower, by simp only [Chunk.stop]; omega⟩
  · split at rest
    · rw [List.mem_singleton.mp rest]
      exact ⟨by simp only; omega, by simp only [Chunk.stop]; omega⟩
    · simp at rest

/-- What every step leaves represented, bounded and coalesced. -/
structure Shaped (after : HeapState) (later : List Chunk) : Prop where
  represents : after.heap.Represents later
  bounded : ∀ chunk ∈ later, chunk.Bounded
  coalesced : Coalesced Chunk.addr Chunk.stop Chunk.Free later

theorem Sound.step_malloc {size run : Nat} (sound : state.Sound chunks slack)
    (moved : state.step (.malloc size run) = some after) :
    ∃ later, Change state chunks after (.malloc size run) later ∧ after.Shaped later := by
  have searched := @Heap.search_eq _ _ _ (chunkSize + size) sound.represents sound.enough
  by_cases small : chunkSize + size < 2 ^ 31
  · have total : (chunkSize + size) % 2 ^ 32 = chunkSize + size := Nat.mod_eq_of_lt (by omega)
    simp only [step, if_pos small, searched] at moved
    cases found : chunks.find? (Heap.Fits (chunkSize + size)) with
    | some chunk =>
        have member := List.mem_of_find?_eq_some found
        have fits := List.find?_some found
        simp only [Heap.Fits, Bool.and_eq_true, Bool.not_eq_true', decide_eq_true_eq] at fits
        obtain ⟨isFree, fits⟩ := fits
        obtain ⟨front, back, rfl⟩ := List.append_of_mem member
        have bounded := sound.bounded chunk member
        have addr : (chunk.addr + chunkSize) % 2 ^ 32 = chunk.addr + chunkSize := by
          have upper := bounded.upper
          apply Nat.mod_eq_of_lt
          simp only [Chunk.stop, chunkSize] at *
          omega
        simp only [found, Option.map_some, Heap.malloc, total, searched, addr] at moved
        cases moved
        refine ⟨_, .serve rfl isFree fits rfl rfl, ?_, ?_, coalesced_serve sound.coalesced isFree fits⟩
        · exact Heap.split_represents sound.represents bounded fits
            (fun other inside => split_fresh sound.apart member inside fits)
        · intro other inside
          simp only [List.mem_append] at inside
          obtain inFront | inSplit | inBack := inside
          · exact sound.bounded other (by simp [inFront])
          · exact splitChunk_bounded bounded fits inSplit
          · exact sound.bounded other (by simp [inBack])
    | none =>
        simp only [found, Option.map_none] at moved
        split at moved
        · next fresh =>
            have upper : run + Heap.needPageNum (chunkSize + size) * pageSize ≤ 2 ^ 32 := fresh.upper
            have addr : (run + chunkSize) % 2 ^ 32 = run + chunkSize := by
              have enough := (Heap.needPageNum_bounds (chunkSize + size)).1
              apply Nat.mod_eq_of_lt
              simp only [chunkSize, pageSize] at enough upper ⊢
              omega
            simp only [Heap.malloc, total, searched, found, Option.map_none, Option.map_some,
              addr] at moved
            cases moved
            refine ⟨_, .extend fresh rfl rfl, ?_, ?_, coalesced_extend sound.coalesced⟩
            · have enough := (Heap.needPageNum_bounds (chunkSize + size)).1
              refine Heap.extend_represents sound.represents (by omega) upper ?_ ?_
              · intro other inside same
                apply sound.run_fresh fresh inside
                simp only [PageRun.Holds, PageRun.stop, chunkSize] at *
                omega
              · intro room other inside same
                apply sound.run_fresh fresh inside
                simp only [PageRun.Holds, PageRun.stop, chunkSize] at *
                omega
            · intro other inside
              cases List.mem_append.mp inside with
              | inl old => exact sound.bounded other old
              | inr new => exact newChunks_bounded fresh.lower upper new
        · contradiction
  · simp only [step, if_neg small] at moved
    contradiction

theorem Sound.step_free {addr : Nat} (sound : state.Sound chunks slack)
    (moved : state.step (.free addr) = some after) :
    ∃ later, Change state chunks after (.free addr) later ∧ after.Shaped later := by
  simp only [step] at moved
  cases found : state.blocks.find? (fun block => block.1 = addr) with
  | none => simp [found] at moved
  | some block =>
      simp only [found] at moved
      cases moved
      have member := List.mem_of_find?_eq_some found
      have same : block.1 = addr := by simpa using List.find?_some found
      subst same
      obtain ⟨chunk, inside, taken, start, size⟩ := sound.blocks block member
      have whole : block = (chunk.addr + chunkSize, chunk.size) := Prod.ext start.symm size.symm
      subst whole
      obtain ⟨front, back, rfl⟩ := List.append_of_mem inside
      obtain ⟨rest, left, right, behind, merged, rfl, rfl, neighbours, isFree, bounded, tiles,
        represents, coalesced⟩ :=
        Heap.free_represents sound.represents sound.bounded sound.coalesced
      refine ⟨_, .free (by simp) taken neighbours isFree tiles rfl member rfl, represents, ?_,
        coalesced⟩
      intro other inside
      by_cases here : other = merged
      · subst here
        exact bounded
      · exact sound.bounded other (by grind)

theorem Sound.step_change (sound : state.Sound chunks slack) (moved : state.step op = some after) :
    ∃ later, Change state chunks after op later ∧ after.Shaped later := by
  cases op with
  | malloc size run => exact sound.step_malloc moved
  | free addr => exact sound.step_free moved

/-! ## Every step keeps the tiling -/

theorem chunk_ordered (chunk : Chunk) : chunk.addr ≤ chunk.stop := by
  simp only [Chunk.stop]
  omega

theorem splitChunk_tiles {chunk : Chunk} {size : Nat} (fits : chunkSize + size ≤ chunk.size) :
    Tiles Chunk.addr Chunk.stop chunk.addr (Heap.splitChunk chunk size) chunk.stop := by
  refine ⟨rfl, ?_, ?_⟩ <;> simp only [Tiles, Chunk.stop] <;> omega

theorem tiles_same {xs ys : List Chunk} {a b byte : Nat}
    (first : Tiles Chunk.addr Chunk.stop a xs b) (second : Tiles Chunk.addr Chunk.stop a ys b) :
    Covered Chunk.Holds xs byte ↔ Covered Chunk.Holds ys byte := by
  rw [Chunk.Holds, first.covered_iff (fun x _ => chunk_ordered x),
    second.covered_iff (fun x _ => chunk_ordered x)]

/-- The part of a new run that its chunks cover. -/
def covers (size : Nat) : Nat :=
  if Heap.needPageNum (chunkSize + size) * pageSize - (chunkSize + size) > chunkSize then
    Heap.needPageNum (chunkSize + size) * pageSize
  else chunkSize + size

theorem newChunks_tiles {run size : Nat} :
    Tiles Chunk.addr Chunk.stop run (Heap.newChunks run size) (run + covers size) := by
  simp only [Heap.newChunks, covers]
  split
  · refine ⟨rfl, ?_, ?_⟩ <;> simp only [Tiles, Chunk.stop] <;> omega
  · exact ⟨rfl, by simp only [Tiles, Chunk.stop]; omega⟩

theorem covers_bounds (size : Nat) :
    covers size ≤ Heap.needPageNum (chunkSize + size) * pageSize ∧
      Heap.needPageNum (chunkSize + size) * pageSize - covers size ≤ chunkSize := by
  obtain ⟨enough, _⟩ := Heap.needPageNum_bounds (chunkSize + size)
  simp only [covers]
  split <;> omega

theorem Sound.serve {front back : List Chunk} {chunk : Chunk} {size : Nat}
    (sound : state.Sound (front ++ chunk :: back) slack)
    (shaped : after.Shaped (front ++ (Heap.splitChunk chunk size ++ back)))
    (isFree : chunk.Free) (fits : chunkSize + size ≤ chunk.size) (runs : after.runs = state.runs)
    (blocks : after.blocks = (chunk.addr + chunkSize, size) :: state.blocks) :
    after.Sound (front ++ (Heap.splitChunk chunk size ++ back)) slack := by
  have same : ∀ byte, Covered Chunk.Holds (Heap.splitChunk chunk size) byte ↔
      Covered Chunk.Holds [chunk] byte := fun byte =>
    tiles_same (splitChunk_tiles fits) (tiles_singleton.mpr ⟨rfl, rfl⟩)
  have inner := (splitChunk_tiles fits).apart (fun x _ => chunk_ordered x)
  have apart := sound.apart
  rw [List.append_cons] at apart
  have other : ∀ block ∈ state.blocks, ∃ old ∈ front ++ back, old.allocated = true ∧
      old.addr + chunkSize = block.1 ∧ old.size = block.2 := by
    intro block member
    obtain ⟨old, inside, taken, rest⟩ := sound.blocks block member
    refine ⟨old, ?_, taken, rest⟩
    have different : old ≠ chunk := by
      rintro rfl
      rw [Chunk.Free, taken] at isFree
      contradiction
    grind
  refine ⟨shaped.represents, shaped.bounded, ?_, shaped.coalesced, runs ▸ sound.runs,
    runs ▸ sound.slack_le, ?_, ?_, ?_⟩
  · rw [← List.append_assoc]
    exact apart.replace inner same
  · intro byte
    rw [runs, ← sound.covered byte, List.append_cons, ← List.append_assoc]
    exact covered_replace same
  · intro block member
    rw [blocks] at member
    cases List.mem_cons.mp member with
    | inl new =>
        subst new
        exact ⟨{ addr := chunk.addr, allocated := true, size }, by simp [Heap.splitChunk], rfl, rfl, rfl⟩
    | inr old =>
        obtain ⟨old, inside, rest⟩ := other block old
        exact ⟨old, by grind, rest⟩
  · rw [blocks, List.map_cons]
    refine List.nodup_cons.mpr ⟨?_, sound.distinct⟩
    intro member
    obtain ⟨block, inside, equal⟩ := List.mem_map.mp member
    obtain ⟨old, inList, _, start, _⟩ := other block inside
    exact sound.represents.addr_ne old inList (by simp only at equal; omega)

theorem Sound.extend {size run : Nat} (sound : state.Sound chunks slack)
    (shaped : after.Shaped (chunks ++ Heap.newChunks run size))
    (fresh : PageRun.Fresh state.runs { base := run, pages := Heap.needPageNum (chunkSize + size) })
    (runs : after.runs = { base := run, pages := Heap.needPageNum (chunkSize + size) } :: state.runs)
    (blocks : after.blocks = (run + chunkSize, size) :: state.blocks) :
    ∃ slack, after.Sound (chunks ++ Heap.newChunks run size) slack := by
  generalize newRun : ({ base := run, pages := Heap.needPageNum (chunkSize + size) } : PageRun) = new
    at fresh runs
  have base : new.base = run := by rw [← newRun]
  have stop : new.stop = run + Heap.needPageNum (chunkSize + size) * pageSize := by rw [← newRun]; rfl
  have pages : new.pages = Heap.needPageNum (chunkSize + size) := by rw [← newRun]
  obtain ⟨within, rest⟩ := covers_bounds size
  have enough := (Heap.needPageNum_bounds (chunkSize + size)).1
  have inside : ∀ byte, Covered Chunk.Holds (Heap.newChunks run size) byte ↔
      run ≤ byte ∧ byte < run + covers size :=
    fun byte => newChunks_tiles.covered_iff (fun x _ => chunk_ordered x)
  have outside : ∀ byte, Covered Chunk.Holds chunks byte → ¬ new.Holds byte := by
    intro byte covered held
    obtain ⟨old, member, lower, upper⟩ := (sound.covered byte).mp covered
    have apart := fresh.apart old member
    simp only [PageRun.Holds] at held
    omega
  have notOld : ∀ old ∈ state.runs, old ≠ new := by
    rintro old member rfl
    have apart := fresh.apart old member
    simp only [chunkSize] at *
    omega
  refine ⟨Function.update slack new (Heap.needPageNum (chunkSize + size) * pageSize - covers size),
    shaped.represents, shaped.bounded, ?_, shaped.coalesced, ?_, ?_, ?_, ?_, ?_⟩
  · refine apart_append.mpr ⟨sound.apart, newChunks_tiles.apart (fun x _ => chunk_ordered x), ?_⟩
    intro byte covered new
    apply outside byte covered
    have bounds := (inside byte).mp new
    simp only [PageRun.Holds]
    omega
  · rw [runs]
    refine List.pairwise_cons.mpr ⟨?_, sound.runs⟩
    intro old member
    have apart := fresh.apart old member
    omega
  · intro old member
    rw [runs] at member
    cases List.mem_cons.mp member with
    | inl here =>
        subst here
        rw [Function.update_self, pages]
        omega
    | inr old =>
        rw [Function.update_of_ne (notOld _ old)]
        exact sound.slack_le _ old
  · intro byte
    rw [covered_append, sound.covered byte, inside byte, runs]
    constructor
    · rintro (⟨old, member, lower, upper⟩ | ⟨lower, upper⟩)
      · exact ⟨old, List.mem_cons_of_mem _ member, lower,
          by rwa [Function.update_of_ne (notOld old member)]⟩
      · exact ⟨new, by simp, by omega, by rw [Function.update_self]; omega⟩
    · rintro ⟨old, member, lower, upper⟩
      cases List.mem_cons.mp member with
      | inl here =>
          subst here
          rw [Function.update_self] at upper
          exact .inr (by omega)
      | inr member =>
          rw [Function.update_of_ne (notOld old member)] at upper
          exact .inl ⟨old, member, lower, upper⟩
  · intro block member
    rw [blocks] at member
    cases List.mem_cons.mp member with
    | inl new =>
        subst new
        exact ⟨{ addr := run, allocated := true, size }, by simp [Heap.newChunks], rfl, rfl, rfl⟩
    | inr old =>
        obtain ⟨chunk, member, rest⟩ := sound.blocks block old
        exact ⟨chunk, List.mem_append_left _ member, rest⟩
  · rw [blocks, List.map_cons]
    refine List.nodup_cons.mpr ⟨?_, sound.distinct⟩
    intro member
    obtain ⟨block, inBlocks, equal⟩ := List.mem_map.mp member
    obtain ⟨old, inList, _, start, _⟩ := sound.blocks block inBlocks
    apply sound.run_fresh fresh inList
    simp only [PageRun.Holds, chunkSize] at *
    omega

theorem Sound.free {rest left right behind : List Chunk} {chunk merged : Chunk}
    (sound : state.Sound (rest ++ (left ++ chunk :: right) ++ behind) slack)
    (shaped : after.Shaped (rest ++ merged :: behind))
    (neighbours : ∀ other ∈ left ++ right, other.Free)
    (tiles : Tiles Chunk.addr Chunk.stop merged.addr (left ++ chunk :: right) merged.stop)
    (runs : after.runs = state.runs)
    (blocks : after.blocks = state.blocks.erase (chunk.addr + chunkSize, chunk.size)) :
    after.Sound (rest ++ merged :: behind) slack := by
  have single : Tiles Chunk.addr Chunk.stop merged.addr [merged] merged.stop :=
    tiles_singleton.mpr ⟨rfl, rfl⟩
  have same : ∀ byte, Covered Chunk.Holds [merged] byte ↔
      Covered Chunk.Holds (left ++ chunk :: right) byte := fun byte => tiles_same single tiles
  refine ⟨shaped.represents, shaped.bounded, ?_, shaped.coalesced, runs ▸ sound.runs,
    runs ▸ sound.slack_le, ?_, ?_, ?_⟩
  · rw [List.append_cons]
    exact sound.apart.replace (single.apart (fun x _ => chunk_ordered x)) same
  · intro byte
    rw [runs, ← sound.covered byte, List.append_cons]
    exact covered_replace same
  · intro block member
    rw [blocks] at member
    have distinct : state.blocks.Nodup := sound.distinct.of_map
    obtain ⟨different, old⟩ := distinct.mem_erase_iff.mp member
    obtain ⟨holder, inside, taken, start, size⟩ := sound.blocks block old
    refine ⟨holder, ?_, taken, start, size⟩
    have notChunk : holder ≠ chunk := by
      rintro rfl
      exact different (Prod.ext start.symm size.symm)
    have notNeighbour : holder ∉ left ++ right := by
      intro neighbour
      have isFree := neighbours holder neighbour
      rw [Chunk.Free, taken] at isFree
      contradiction
    grind
  · rw [blocks]
    exact sound.distinct.sublist (List.Sublist.map _ List.erase_sublist)

theorem Sound.step (sound : state.Sound chunks slack) (moved : state.step op = some after) :
    ∃ later slack, after.Sound later slack ∧ Change state chunks after op later := by
  obtain ⟨later, change, shaped⟩ := sound.step_change moved
  cases change with
  | serve split isFree fits runs blocks =>
      subst split
      exact ⟨_, slack, sound.serve shaped isFree fits runs blocks, .serve rfl isFree fits runs blocks⟩
  | extend fresh runs blocks =>
      obtain ⟨slack, extended⟩ := sound.extend shaped fresh runs blocks
      exact ⟨_, slack, extended, .extend fresh runs blocks⟩
  | free split taken neighbours isFree tiles runs block blocks =>
      subst split
      exact ⟨_, slack, sound.free shaped neighbours tiles runs blocks,
        .free rfl taken neighbours isFree tiles runs block blocks⟩

theorem sound_of_reachable (reached : machine.Reachable state) :
    ∃ chunks slack, state.Sound chunks slack := by
  apply reached.invariant
  · rintro _ ⟨header, nodes, rfl⟩
    refine ⟨[], fun _ => 0, Heap.mallocInit_represents header nodes, by simp, List.Pairwise.nil,
      List.IsChain.nil, List.Pairwise.nil, by simp, by simp, by simp, by simp⟩
  · rintro before op after ⟨chunks, slack, sound⟩ moved
    obtain ⟨later, slack, sound, _⟩ := sound.step moved
    exact ⟨later, slack, sound⟩

theorem apart_intervals (apart : Apart Chunk.Holds chunks) :
    chunks.Pairwise fun first second => first.stop ≤ second.addr ∨ second.stop ≤ first.addr := by
  refine apart.imp ?_
  intro first second disjoint
  by_contra overlap
  have here : first.Holds (max first.addr second.addr) := by
    simp only [Chunk.Holds, Between, Chunk.stop, chunkSize] at *
    omega
  refine disjoint _ here ?_
  simp only [Chunk.Holds, Between, Chunk.stop, chunkSize] at *
  omega

theorem Sound.chunks_separate (sound : state.Sound chunks slack) {first second : Chunk}
    (inFirst : first ∈ chunks) (inSecond : second ∈ chunks) (different : first ≠ second) :
    first.stop ≤ second.addr ∨ second.stop ≤ first.addr := by
  have intervals := apart_intervals sound.apart
  have symmetric : Std.Symm fun first second : Chunk =>
      first.stop ≤ second.addr ∨ second.stop ≤ first.addr := ⟨fun _ _ => Or.symm⟩
  exact intervals.forall inFirst inSecond different

theorem Sound.payload_header {block : Nat × Nat} {other : Chunk} (sound : state.Sound chunks slack)
    (member : block ∈ state.blocks) (inside : other ∈ chunks) :
    block.1 + block.2 ≤ other.addr ∨ other.addr + chunkSize ≤ block.1 := by
  obtain ⟨chunk, inChunks, _, start, size⟩ := sound.blocks block member
  by_cases same : chunk = other
  · subst same
    omega
  · have separate := sound.chunks_separate inChunks inside same
    simp only [Chunk.stop] at separate
    omega

theorem Sound.payloads {first second : Nat × Nat} (sound : state.Sound chunks slack)
    (inFirst : first ∈ state.blocks) (inSecond : second ∈ state.blocks) (different : first ≠ second) :
    first.1 + first.2 ≤ second.1 ∨ second.1 + second.2 ≤ first.1 := by
  obtain ⟨chunk, inChunks, _, start, size⟩ := sound.blocks first inFirst
  obtain ⟨other, inOthers, _, startOther, sizeOther⟩ := sound.blocks second inSecond
  have distinct : chunk ≠ other := by
    rintro rfl
    exact different (Prod.ext (start.symm.trans startOther) (size.symm.trans sizeOther))
  have separate := sound.chunks_separate inChunks inOthers distinct
  simp only [Chunk.stop] at separate
  omega

theorem Sound.run_tiled {run : PageRun} {byte : Nat} (sound : state.Sound chunks slack)
    (member : run ∈ state.runs) (lower : run.base ≤ byte) (upper : byte < run.stop) :
    if byte + slack run < run.stop then ∃! chunk, chunk ∈ chunks ∧ chunk.Holds byte
    else ∀ chunk ∈ chunks, ¬ chunk.Holds byte := by
  split
  · next inside =>
      obtain ⟨chunk, inChunks, holds⟩ := (sound.covered byte).mpr ⟨run, member, lower, inside⟩
      refine ⟨chunk, ⟨inChunks, holds⟩, ?_⟩
      rintro other ⟨inOthers, alsoHolds⟩
      exact sound.apart.unique inOthers inChunks alsoHolds holds
  · next beyond =>
      intro chunk inChunks holds
      obtain ⟨other, inRuns, lowerOther, upperOther⟩ := (sound.covered byte).mp ⟨chunk, inChunks, holds⟩
      have same : other = run := by
        by_contra different
        have symmetric : Std.Symm fun first second : PageRun =>
            first.stop ≤ second.base ∨ second.stop ≤ first.base := ⟨fun _ _ => Or.symm⟩
        have separate := sound.runs.forall inRuns member different
        omega
      subst same
      exact beyond upperOther

/-- After any calls of `malloc` and `free` the chunks on the list are disjoint
intervals inside the acquired pages, the outstanding blocks are allocated chunks of
exactly the size asked for, and no byte of the pages is missing from the chunks
except at most twelve at the end of each run. -/
theorem malloc_tiles_pages (reached : machine.Reachable state) :
    ∃ chunks, state.heap.Represents chunks ∧
      (chunks.Pairwise fun first second =>
        first.stop ≤ second.addr ∨ second.stop ≤ first.addr) ∧
      (∀ chunk ∈ chunks, ∀ byte, chunk.addr ≤ byte → byte < chunk.stop →
        ∃ run ∈ state.runs, run.base ≤ byte ∧ byte < run.stop) ∧
      (∀ block ∈ state.blocks, ∃ chunk ∈ chunks, chunk.allocated = true ∧
        chunk.addr + chunkSize = block.1 ∧ chunk.size = block.2) ∧
      ((state.blocks.map Prod.fst).Nodup ∧
        ∀ first ∈ state.blocks, ∀ second ∈ state.blocks, first ≠ second →
          first.1 + first.2 ≤ second.1 ∨ second.1 + second.2 ≤ first.1) ∧
      (∀ block ∈ state.blocks, ∀ chunk ∈ chunks,
        block.1 + block.2 ≤ chunk.addr ∨ chunk.addr + chunkSize ≤ block.1) ∧
      (∀ run ∈ state.runs, ∃ slack ≤ chunkSize, ∀ byte, run.base ≤ byte → byte < run.stop →
        if byte + slack < run.stop then ∃! chunk, chunk ∈ chunks ∧ chunk.Holds byte
        else ∀ chunk ∈ chunks, ¬ chunk.Holds byte) ∧
      (∀ size run, ∃ result, state.heap.malloc searchFuel size run = some result) := by
  obtain ⟨chunks, slack, sound⟩ := sound_of_reachable reached
  refine ⟨chunks, sound.represents, apart_intervals sound.apart, ?_, sound.blocks,
    ⟨sound.distinct, fun first inFirst second inSecond => sound.payloads inFirst inSecond⟩,
    fun block member chunk inside => sound.payload_header member inside, ?_, ?_⟩
  · intro chunk inside byte lower upper
    obtain ⟨run, member, above, below⟩ := (sound.covered byte).mp ⟨chunk, inside, lower, upper⟩
    exact ⟨run, member, above, by omega⟩
  · intro run member
    exact ⟨slack run, (sound.slack_le run member).1, fun byte => sound.run_tiled member⟩
  · intro size run
    simp only [Heap.malloc, Heap.search_eq sound.represents sound.enough, Option.map_some]
    exact ⟨_, rfl⟩

/-- Two blocks out of one page, and the first of them freed. -/
def twoBlocks : List HeapOp :=
  [.malloc 1000 0xC0400000, .malloc 1000 0, .free 0xC040000C]

def emptyHeap : HeapState where
  heap := Heap.mallocInit (fun _ => { allocated := false, size := 0 }) { prev := id, next := id }
  runs := []
  blocks := []

theorem malloc_tiles_two_blocks :
    ∃ state chunks, machine.run emptyHeap twoBlocks = some state ∧
      state.blocks = [(0xC0400400, 1000)] ∧ state.heap.Represents chunks ∧
      ∃ chunk ∈ chunks, chunk.allocated = true ∧ chunk.addr = 0xC04003F4 ∧ chunk.size = 1000 := by
  have runs : (machine.run emptyHeap twoBlocks).any
      (fun state => decide (state.blocks = [(0xC0400400, 1000)])) = true := by
    decide +kernel
  cases ran : machine.run emptyHeap twoBlocks with
  | none => simp [ran] at runs
  | some state =>
      have blocks : state.blocks = [(0xC0400400, 1000)] := by simpa [ran] using runs
      obtain ⟨chunks, represents, _, _, outstanding, _⟩ :=
        malloc_tiles_pages (.run (.start ⟨_, _, rfl⟩) ran)
      obtain ⟨chunk, member, taken, start, size⟩ := outstanding (0xC0400400, 1000) (by simp [blocks])
      simp only [chunkSize] at start
      exact ⟨state, chunks, rfl, blocks, represents, chunk, member, taken, by omega, size⟩

/-- After any calls of `malloc` and `free` no two neighbours on the list are both free
with the second beginning where the first ends. -/
theorem no_free_neighbours (reached : machine.Reachable state) :
    ∃ chunks, state.heap.Represents chunks ∧
      ∀ front first second back, chunks = front ++ first :: second :: back →
        ¬ (first.allocated = false ∧ second.allocated = false ∧
          first.addr + chunkSize + first.size = second.addr) := by
  obtain ⟨chunks, slack, sound⟩ := sound_of_reachable reached
  refine ⟨chunks, sound.represents, ?_⟩
  rintro front first second back rfl ⟨freeFirst, freeSecond, meets⟩
  have behind := (coalesced_split.mp sound.coalesced).2
  exact (List.isChain_cons_cons.mp behind).1 ⟨freeFirst, freeSecond, meets⟩

/-- Three blocks in a row, freed from the outside to the inside. -/
def outsideIn : List HeapOp :=
  [.malloc 1000 0xC0400000, .malloc 1000 0, .malloc 1000 0, .free 0xC040000C, .free 0xC04007F4,
    .free 0xC0400400]

theorem no_free_neighbours_outside_in :
    ∃ state chunks, machine.run emptyHeap outsideIn = some state ∧ state.blocks = [] ∧
      state.heap.Represents chunks ∧
      ∀ front first second back, chunks = front ++ first :: second :: back →
        ¬ (first.allocated = false ∧ second.allocated = false ∧
          first.addr + chunkSize + first.size = second.addr) := by
  have runs : (machine.run emptyHeap outsideIn).any
      (fun state => decide (state.blocks = [])) = true := by
    decide +kernel
  cases ran : machine.run emptyHeap outsideIn with
  | none => simp [ran] at runs
  | some state =>
      have blocks : state.blocks = [] := by simpa [ran] using runs
      obtain ⟨chunks, represents, apart⟩ := no_free_neighbours (.run (.start ⟨_, _, rfl⟩) ran)
      exact ⟨state, chunks, rfl, blocks, represents, apart⟩

end HeapState

end WindOs.Mm
