import WindOs.Mm.MallocTiling

namespace WindOs.Mm

open Data

/-! # Freeing everything restores the heap

A session allocates from the chunks that are there and gives back what it took.
Its heap is the one it began with, cut at places that only the session knows, so
that a coalesced list without any of its blocks is the list it began with.
-/

namespace HeapState

/-- Calls from `start` on that take no new page and free only blocks of their own;
the list names the blocks that are still to be freed. -/
inductive Session (start : HeapState) : List Nat → HeapState → Prop where
  | begin : Session start [] start
  | malloc {own : List Nat} {state after : HeapState} {size run addr : Nat}
      (earlier : Session start own state)
      (moved : state.step (.malloc size run) = some after) (served : after.runs = state.runs)
      (returned : after.blocks = (addr, size) :: state.blocks) : Session start (addr :: own) after
  | free {own : List Nat} {state after : HeapState} {addr : Nat} (earlier : Session start own state)
      (mine : addr ∈ own) (moved : state.step (.free addr) = some after) :
      Session start (own.erase addr) after

/-- A chunk that the session may cut or has cut out. -/
def Ours (own : List Nat) (chunk : Chunk) : Prop :=
  chunk.Free ∨ chunk.addr + chunkSize ∈ own

variable {start state finish : HeapState} {chunks whole : List Chunk} {own : List Nat}
variable {slack : PageRun → Nat}

theorem ours_congr {other : List Nat} {chunk : Chunk}
    (same : chunk.addr + chunkSize ∈ own ↔ chunk.addr + chunkSize ∈ other) :
    Ours own chunk ↔ Ours other chunk := by
  simp only [Ours, same]

theorem session_serve {front back : List Chunk} {chunk : Chunk} {size : Nat}
    (coalesced : Coalesced Chunk.addr Chunk.stop Chunk.Free whole)
    (represents : state.heap.Represents (front ++ chunk :: back))
    (subdivides : Subdivides Chunk.addr Chunk.stop Chunk.Free (Ours own) whole
      (front ++ chunk :: back)) (isFree : chunk.Free) (fits : chunkSize + size ≤ chunk.size) :
    Subdivides Chunk.addr Chunk.stop Chunk.Free (Ours ((chunk.addr + chunkSize) :: own)) whole
      (front ++ (Heap.splitChunk chunk size ++ back)) := by
  have single : Tiles Chunk.addr Chunk.stop chunk.addr ([] ++ chunk :: []) chunk.stop :=
    tiles_singleton.mpr ⟨rfl, rfl⟩
  have parts : Subdivides Chunk.addr Chunk.stop Chunk.Free (Ours own) whole
      (front ++ ([] ++ chunk :: []) ++ back) := by
    simpa using subdivides
  rw [← List.append_assoc]
  refine parts.exchange (.inl isFree) (by simp) single coalesced
    (splitChunk_tiles fits) (by simp [Heap.splitChunk]) ?_ ?_
  · intro piece member
    simp only [Heap.splitChunk, List.mem_cons, List.not_mem_nil, or_false] at member
    obtain rfl | rfl := member
    · exact .inr (by simp)
    · exact .inl rfl
  · intro piece member
    have different := represents.addr_ne piece member
    apply ours_congr
    rw [List.mem_cons]
    constructor
    · exact .inr
    · rintro (same | old)
      · omega
      · exact old

theorem session_free {rest left right behind : List Chunk} {chunk merged : Chunk}
    (coalesced : Coalesced Chunk.addr Chunk.stop Chunk.Free whole)
    (represents : state.heap.Represents (rest ++ (left ++ chunk :: right) ++ behind))
    (subdivides : Subdivides Chunk.addr Chunk.stop Chunk.Free (Ours own) whole
      (rest ++ (left ++ chunk :: right) ++ behind)) (mine : chunk.addr + chunkSize ∈ own)
    (neighbours : ∀ other ∈ left ++ right, other.Free) (isFree : merged.Free)
    (tiles : Tiles Chunk.addr Chunk.stop merged.addr (left ++ chunk :: right) merged.stop) :
    Subdivides Chunk.addr Chunk.stop Chunk.Free (Ours (own.erase (chunk.addr + chunkSize))) whole
      (rest ++ merged :: behind) := by
  have single : Tiles Chunk.addr Chunk.stop merged.addr [merged] merged.stop :=
    tiles_singleton.mpr ⟨rfl, rfl⟩
  rw [List.append_cons]
  refine subdivides.exchange (.inr mine) (fun other member => .inl (neighbours other member)) tiles
    coalesced single (by simp) ?_ ?_
  · intro piece member
    rw [List.mem_singleton.mp member]
    exact .inl isFree
  · intro piece member
    have split : rest ++ (left ++ chunk :: right) ++ behind =
        (rest ++ left) ++ chunk :: (right ++ behind) := by simp
    rw [split] at represents
    have different := represents.addr_ne piece (by grind)
    apply ours_congr
    rw [List.mem_erase_of_ne (by omega)]

/-- What a session leaves is what it began with, cut into pieces of its own. -/
theorem session_subdivides (soundStart : start.Sound whole slack)
    (session : Session start own state) :
    ∃ chunks slack, state.Sound chunks slack ∧
      Subdivides Chunk.addr Chunk.stop Chunk.Free (Ours own) whole chunks := by
  induction session with
  | begin => exact ⟨whole, slack, soundStart, Subdivides.refl (fun chunk _ => by simp [Ours])⟩
  | @malloc own state after size run addr earlier moved served returned ih =>
      obtain ⟨chunks, slack, sound, subdivides⟩ := ih
      obtain ⟨later, slack, soundAfter, change⟩ := sound.step moved
      cases change with
      | extend fresh runs =>
          rw [served] at runs
          simp at runs
      | serve split isFree fits runs blocks =>
          subst split
          rw [returned] at blocks
          have same := (Prod.ext_iff.mp (List.cons.inj blocks).1).1
          simp only at same
          subst same
          exact ⟨_, slack, soundAfter,
            session_serve soundStart.coalesced sound.represents subdivides isFree fits⟩
  | @free own state after addr earlier mine moved ih =>
      obtain ⟨chunks, slack, sound, subdivides⟩ := ih
      obtain ⟨later, slack, soundAfter, change⟩ := sound.step moved
      cases change with
      | free split taken neighbours isFree tiles runs block blocks =>
          subst split
          exact ⟨_, slack, soundAfter, session_free soundStart.coalesced sound.represents subdivides
            mine neighbours isFree tiles⟩

theorem free_determined (first second : Chunk) (freeFirst : first.Free) (freeSecond : second.Free)
    (start : first.addr = second.addr) (stop : first.stop = second.stop) : first = second := by
  have size : first.size = second.size := by
    simp only [Chunk.stop] at stop
    omega
  cases first
  cases second
  simp_all [Chunk.Free]

/-- A session that has freed all its blocks, in whatever order, leaves exactly the
chunk list it began with. -/
theorem session_restores (reached : machine.Reachable start) (session : Session start [] finish)
    (chunks : List Chunk) : start.heap.Represents chunks ↔ finish.heap.Represents chunks := by
  obtain ⟨whole, slack, sound⟩ := sound_of_reachable reached
  obtain ⟨parts, slack, soundFinish, subdivides⟩ := session_subdivides sound session
  have allFree : ∀ chunk ∈ parts, Ours [] chunk → chunk.Free := by
    intro chunk _ ours
    simpa [Ours] using ours
  have same := subdivides.eq_of_coalesced allFree soundFinish.coalesced free_determined
  subst same
  constructor
  · intro represents
    rw [represents.unique sound.represents]
    exact soundFinish.represents
  · intro represents
    rw [represents.unique soundFinish.represents]
    exact sound.represents

/-- One block stays; two more are taken and given back, the first of them first. -/
def takeAndReturn : machine.Trace :=
  .ofLabels machine emptyHeap ⟨_, _, rfl⟩ (.free 0)
    [.malloc 1000 0xC0400000, .malloc 100 0, .malloc 200 0, .free 0xC0400400, .free 0xC0400470]
    (by decide +kernel)

theorem session_restores_two_blocks :
    Session (takeAndReturn.state 1) [] (takeAndReturn.state 5) ∧
      (takeAndReturn.state 1).blocks = [(0xC040000C, 1000)] ∧
      ∀ chunks, (takeAndReturn.state 1).heap.Represents chunks ↔
        (takeAndReturn.state 5).heap.Represents chunks := by
  have mallocFirst : (takeAndReturn.state 1).step (.malloc 100 0) = some (takeAndReturn.state 2) :=
    takeAndReturn.step 1 (by decide)
  have mallocSecond : (takeAndReturn.state 2).step (.malloc 200 0) = some (takeAndReturn.state 3) :=
    takeAndReturn.step 2 (by decide)
  have freeFirst : (takeAndReturn.state 3).step (.free 0xC0400400) = some (takeAndReturn.state 4) :=
    takeAndReturn.step 3 (by decide)
  have freeSecond : (takeAndReturn.state 4).step (.free 0xC0400470) = some (takeAndReturn.state 5) :=
    takeAndReturn.step 4 (by decide)
  have first : Session (takeAndReturn.state 1) [0xC0400400] (takeAndReturn.state 2) :=
    .malloc .begin mallocFirst (by decide +kernel) (by decide +kernel)
  have second : Session (takeAndReturn.state 1) [0xC0400470, 0xC0400400] (takeAndReturn.state 3) :=
    .malloc first mallocSecond (by decide +kernel) (by decide +kernel)
  have third : Session (takeAndReturn.state 1) [0xC0400470] (takeAndReturn.state 4) :=
    .free second (by decide) freeFirst
  have session : Session (takeAndReturn.state 1) [] (takeAndReturn.state 5) :=
    .free third (by decide) freeSecond
  exact ⟨session, by decide +kernel, session_restores (takeAndReturn.reachable (by decide)) session⟩

end HeapState

end WindOs.Mm
