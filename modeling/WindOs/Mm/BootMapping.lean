import WindOs.Mm.PageInit
import WindOs.Mm.Virtual
import WindOs.Mm.CopyMm

namespace WindOs.Mm

open Data

/-! # From kern_init to vmm_init

`kern_init` maps the first 4 MB twice with one table.  `page_init` then maps every frame of the pool,
and takes the tables that this needs from the front of the pool itself.
-/

namespace Paging

/-- A loop over the entries of a frame. -/
@[irreducible] def fillEntries (pg : Paging) (frame count : Nat) (value : Nat → Nat → Nat) : Paging :=
  (List.range count).foldl (fun pg i => pg.setEntry frame i (value i (pg.entry frame i))) pg

/-- The three assignments to a field of `pd` or `fst`. -/
def allFields (addr entry : Nat) : Nat := Entry.setSign (Entry.setOs (Entry.setAddr entry addr) 0) 0x7

/-- `kern_init`, with `pd` at 0 and `fst` at 0x1000 -/
def kernInit (kernStart : Nat) (pg : Paging) : Paging :=
  let pg := pg.fillEntries 0 (pageSize / 4) fun _ _ => 0
  let pg := pg.setEntry 0 0 (allFields (0x1000 / 2 ^ 12) (pg.entry 0 0))
  let i := kernStart / 2 ^ 22
  let pg := pg.setEntry 0 i (allFields (0x1000 / 2 ^ 12) (pg.entry 0 i))
  let pg := pg.fillEntries 1 (pageSize / 4) allFields
  { pg with pde := 0, tlb := fun _ => none }

/-- One round of the loop that maps the pool, with the variable `i`. -/
def mapRound (ptEnd : Nat) : Nat × Paging → (Nat × Paging) ⊕ Except Halt Paging
  | (i, pg) =>
      if i < (ptEnd + vertualMem) % 2 ^ 32 then
        attempt (do
          let (pte, pg) ← pg.getPte VmState.allocOne pg.pde i
          let (frame, j) ← deref pte
          let pg := pg.setEntry frame j (Entry.setSign (pg.entry frame j) 0x3)
          .ok (pg.setEntry frame j
            (Entry.setAddr (pg.entry frame j) ((i + 2 ^ 32 - vertualMem) % 2 ^ 32 / 2 ^ 12))))
          fun pg => ((i + pageSize) % 2 ^ 32, pg)
      else .inr (.ok pg)

def mapPool (fuel : Nat) (pool : PagePool) (pg : Paging) : Except Halt Paging :=
  (loop (mapRound pool.ptEnd) fuel ((pool.ptBegin + vertualMem) % 2 ^ 32, pg)).getD
    (.error .unfinished)

/-- The body of the loop of `page_init`, which clears every `struct Page`. -/
def setUpPool (fuel kernEnd : Nat) (entry : E820Entry) (state : PagePool × Paging) :
    Except Halt (PagePool × Paging) := do
  let pool := state.1.layOut kernEnd entry
  let pg ← mapPool fuel pool { state.2 with
    area := pool.area, count := pool.freePageNum, base := pool.ptBegin / pageSize
    ref := fun _ => 0, va := fun _ => 0 }
  .ok (pool, { pg with tlb := fun _ => none })

/-- The loop of `page_init` from element `i` on. -/
def pageInitFrom (fuel kernEnd : Nat) :
    Nat → PagePool × Paging → List E820Entry → Except Halt (PagePool × Paging)
  | _, state, [] => .ok state
  | i, state, entry :: rest => do
      let state ← if entry.type = 1 ∧ i ≠ 0 then setUpPool fuel kernEnd entry state else .ok state
      pageInitFrom fuel kernEnd (i + 1) state rest

/-- `vmm_init`, where `create_mm` begins both lists of the new `mm` -/
def vmmInit (nullIndex fuel : Nat) (pg : Paging) (heap : Heap) : Except Halt (Paging × Heap) := do
  let (pg, heap, _) ← pg.malloc nullIndex fuel heap sizeofMm
  .ok ({ pg.setNodes (listInit pg.area.nodes .vmFifo) with
    mm := VmaList.createMm, pde := 0, isVmmInited := true }, heap)

/-- `kern_init` and what `init` does to the memory: `pmm_init`, `malloc_init` and `vmm_init`. -/
def bootMemory (nullIndex fuel kernStart kernEnd : Nat) (memmap : List E820Entry)
    (nodes : Links PageNode) (header : Nat → Header) (chunks : Links ChunkNode) (pg : Paging) :
    Except Halt (Paging × Heap) := do
  let (_, pg) ← pageInitFrom fuel kernEnd 0 (.blank nodes, pg.kernInit kernStart) memmap
  pg.vmmInit nullIndex fuel (Heap.mallocInit header chunks)

/-- The entry that maps a frame. -/
def entryFor (frame sign : Nat) : Nat := 2 ^ 12 * frame + sign

section Entries

variable {pg : Paging} {value : Nat → Nat → Nat} {frame count g j sign old : Nat}

theorem allFields_eq (small : frame < 2 ^ 20) : allFields frame old = entryFor frame 7 := by
  simp only [allFields, entryFor, Entry.setSign, Entry.setOs, Entry.setAddr]
  omega

theorem allFields_lt : allFields frame old < 2 ^ 32 := by
  simp only [allFields, Entry.setSign, Entry.setOs, Entry.setAddr]
  omega

/-- Both fields are written over an entry whose other bits are clear. -/
theorem setFields_eq (small : frame < 2 ^ 20) (narrow : sign < 2 ^ 9) (clear : old / 2 ^ 9 % 2 ^ 3 = 0) :
    Entry.setAddr (Entry.setSign old sign) frame = entryFor frame sign := by
  simp only [entryFor, Entry.setSign, Entry.setAddr]
  omega

theorem entryFor_lt (small : frame < 2 ^ 20) (narrow : sign < 2 ^ 9) : entryFor frame sign < 2 ^ 32 := by
  simp only [entryFor]
  omega

theorem entryFor_fields (narrow : sign < 2 ^ 9) :
    Entry.addr (entryFor frame sign) = frame ∧ Entry.sign (entryFor frame sign) = sign ∧
      entryFor frame sign / 2 ^ 9 % 2 ^ 3 = 0 := by
  simp only [Entry.addr, Entry.sign, entryFor]
  omega

theorem fillEntries_succ : pg.fillEntries frame (count + 1) value =
    (pg.fillEntries frame count value).setEntry frame count
      (value count ((pg.fillEntries frame count value).entry frame count)) := by
  unfold fillEntries
  rw [List.range_succ, List.foldl_append]
  rfl

theorem fillEntries_zero : pg.fillEntries frame 0 value = pg := by
  unfold fillEntries
  rfl

theorem fillEntries_entry (small : ∀ i old, value i old < 2 ^ 32) :
    (pg.fillEntries frame count value).entry g j =
      if g = frame ∧ j < count then value j (pg.entry frame j) else pg.entry g j := by
  induction count with
  | zero => rw [if_neg (by omega), fillEntries_zero]
  | succ count ih =>
      rw [fillEntries_succ]
      by_cases here : g = frame
      · subst here
        by_cases last : j = count
        · subst last
          rw [entry_setEntry_self (small _ _), ih, if_neg (by omega), if_pos ⟨rfl, Nat.lt_succ_self j⟩]
        · have before : j < count + 1 ↔ j < count := by omega
          rw [entry_setEntry_of_index last, ih]
          simp only [before]
      · rw [entry_setEntry_of_frame here, ih, if_neg (fun both => here both.1),
          if_neg (fun both => here both.1)]

end Entries

theorem setFields_zero {frame : Nat} (small : frame < 2 ^ 20) :
    Entry.setAddr (Entry.setSign (Entry.setOs 0 0) 7) frame = entryFor frame 7 := by
  simp only [entryFor, Entry.setSign, Entry.setOs, Entry.setAddr]
  omega

theorem newTable_directory {pg : Paging} {frame i : Nat} (apart : frame ≠ pg.pde) :
    (pg.newTable pg.pde i frame).entry pg.pde i =
      Entry.setAddr (Entry.setSign (Entry.setOs (pg.entry pg.pde i) 0) 7) frame := by
  rw [newTable, entry_setEntry_self Entry.set_lt]
  simp only [entry, Function.update_of_ne apart.symm]

theorem newTable_directory_of_ne {pg : Paging} {frame i j : Nat} (apart : frame ≠ pg.pde)
    (other : j ≠ i) : (pg.newTable pg.pde i frame).entry pg.pde j = pg.entry pg.pde j := by
  rw [newTable, entry_setEntry_of_index other]
  simp only [entry, Function.update_of_ne apart.symm]

/-! ## The loop that maps the pool -/

/-- The table for a run of 2^10 frames: `fst`, and then the first frames of the pool. -/
def tableFor (b run : Nat) : Nat := if run = 0 then 1 else b + (run - 1)

/-- With `t` tables besides `fst` the frames from `b` to `f` are mapped, and the other frames of the
pool are free. -/
structure MappedTo (pg : Paging) (b n t f : Nat) : Prop where
  pde : pg.pde = 0
  base : pg.base = b
  count : pg.count = n
  inited : pg.isVmmInited = false
  directory : ∀ j < 1024, pg.entry 0 j =
    if j = 0 ∨ 768 ≤ j ∧ j ≤ 768 + t then entryFor (tableFor b (j - 768)) 7 else 0
  words : ∀ g < 1024 * (t + 1), pg.entry (tableFor b (g / 1024)) (g % 1024) =
    if b ≤ g ∧ g < f then entryFor g 3 else if g < 1024 then entryFor g 7 else 0
  sound : PageState.Sound n { area := pg.area, blocks := [] } (List.range' t (n - t))
  size : pg.area.freePages t = n - t
  ref : ∀ k < n, pg.ref (b + k) = if k < t then 1 else 0

theorem sound_forget {count : Nat} {area : FreeArea} {blocks : List (Nat × Nat)} {list : List Nat}
    (sound : PageState.Sound count { area, blocks } list) :
    PageState.Sound count { area, blocks := [] } list where
  ring := sound.ring
  sorted := sound.sorted
  bounded := sound.bounded
  num := sound.num
  headed := sound.headed
  last := sound.last
  nonempty _ member := nomatch member
  outside _ member := nomatch member
  interior _ member := nomatch member
  disjoint := List.Pairwise.nil

/-- The first page of the one free block is handed out. -/
theorem alloc_front {count k : Nat} {area : FreeArea}
    (sound : PageState.Sound count { area, blocks := [] } (List.range' k (count - k)))
    (size : area.freePages k = count - k) (more : k + 1 < count) :
    ∃ after, area.allocPage (count + 1) 1 = some (some k, after) ∧
      PageState.Sound count { area := after, blocks := [(k, 1)] }
        (List.range' (k + 1) (count - (k + 1))) ∧
      after.freePages (k + 1) = count - (k + 1) := by
  have list : List.range' k (count - k) = k :: List.range' (k + 1) (count - (k + 1)) := by
    rw [show count - k = count - (k + 1) + 1 by omega, List.range'_succ]
  have next : List.range' (k + 1) (count - (k + 1)) =
      (k + 1) :: List.range' (k + 2) (count - (k + 2)) := by
    rw [show count - (k + 1) = count - (k + 2) + 1 by omega, List.range'_succ]
  have served := sound.alloc Nat.one_pos
  rw [or_iff_right (fun refused => ?_)] at served
  · obtain ⟨page, rest, after, whole, done, kept, -, sizes, -⟩ := served
    rw [list] at whole
    obtain ⟨rfl, rfl⟩ : k = page ∧ List.range' (k + 1) (count - (k + 1)) = rest := by
      simpa using whole
    refine ⟨after, done, kept, ?_⟩
    rw [sizes _ _ next, Function.update_self]
    change area.freePages k - 1 = _
    omega
  · have short := (sound.refused_iff Nat.one_pos).mp refused k (by rw [list]; rfl)
    change area.freePages k < 1 at short
    omega

section Rounds

variable {pg : Paging} {b n t f g e : Nat}

theorem tableFor_ne_zero (low : 2 ≤ b) : tableFor b g ≠ 0 := by
  simp only [tableFor]
  split <;> omega

theorem tableFor_injective (low : 2 ≤ b) (same : tableFor b f = tableFor b g) : f = g := by
  simp only [tableFor] at same
  split at same <;> split at same <;> omega

theorem tableFor_lt (few : t ≤ 255) (room : b + 255 ≤ 2 ^ 10) (inside : g ≤ t) :
    tableFor b g < 2 ^ 10 := by
  simp only [tableFor]
  split <;> omega

/-- The next table is the first free frame. -/
theorem MappedTo.newTable (mapped : pg.MappedTo b n t f) (low : 2 ≤ b) (room : b + 255 ≤ 2 ^ 10)
    (few : t + 1 ≤ 255) (many : 255 < n) (all : f ≤ 1024 * (t + 1)) :
    ∃ middle, VmState.allocOne pg = .ok (some (tableFor b (t + 1)), middle) ∧
      (middle.newTable pg.pde (768 + (t + 1)) (tableFor b (t + 1))).MappedTo b n (t + 1) f := by
  obtain ⟨area, served, sound, size⟩ := alloc_front mapped.sound mapped.size (by omega)
  have frame : tableFor b (t + 1) = b + t := rfl
  refine ⟨{ pg with area }, ?_, ?_⟩
  · have allocated := served
    rw [← mapped.count] at allocated
    rw [VmState.allocOne, allocPage_served allocated, if_neg (by rw [mapped.inited]; decide),
      frame, ← mapped.base]
    rfl
  · let middle : Paging := { pg with area }
    have apart : tableFor b (t + 1) ≠ middle.pde := by
      rw [show middle.pde = 0 from mapped.pde]
      exact tableFor_ne_zero low
    have narrow : tableFor b (t + 1) < 2 ^ 10 := tableFor_lt few room (Nat.le_refl _)
    constructor
    · exact mapped.pde
    · exact mapped.base
    · exact mapped.count
    · exact mapped.inited
    · intro j inside
      have place : (middle.newTable pg.pde (768 + (t + 1)) (tableFor b (t + 1))).entry 0 j =
          (middle.newTable pg.pde (768 + (t + 1)) (tableFor b (t + 1))).entry middle.pde j := by
        rw [show middle.pde = 0 from mapped.pde]
      rw [place]
      have old : middle.entry middle.pde j =
          if j = 0 ∨ 768 ≤ j ∧ j ≤ 768 + t then entryFor (tableFor b (j - 768)) 7 else 0 := by
        rw [show middle.pde = 0 from mapped.pde]
        exact mapped.directory j inside
      by_cases here : j = 768 + (t + 1)
      · subst here
        rw [if_neg (by omega)] at old
        have self := @newTable_directory middle (tableFor b (t + 1)) (768 + (t + 1)) apart
        rw [old, setFields_zero (by omega)] at self
        rw [if_pos (by omega), Nat.add_sub_cancel_left]
        exact self
      · have other := @newTable_directory_of_ne middle (tableFor b (t + 1)) (768 + (t + 1)) j apart here
        refine other.trans (old.trans ?_)
        have same : j ≤ 768 + (t + 1) ↔ j ≤ 768 + t := by omega
        simp only [same]
    · intro g inside
      by_cases last : g / 1024 = t + 1
      · rw [last, if_neg (by omega), if_neg (by omega)]
        exact newTable_zero apart
      · have before : g < 1024 * (t + 1) := by omega
        have notFrame : tableFor b (g / 1024) ≠ tableFor b (t + 1) :=
          fun same => last (tableFor_injective low same)
        have notDirectory : tableFor b (g / 1024) ≠ middle.pde := by
          rw [show middle.pde = 0 from mapped.pde]
          exact tableFor_ne_zero low
        have memory := @newTable_memory middle (tableFor b (t + 1)) (768 + (t + 1)) _ notFrame
          notDirectory
        refine Eq.trans ?_ (mapped.words g before)
        exact congrArg (fun bytes : Bytes => bytes.word (g % 1024)) memory
    · exact sound_forget sound
    · exact size
    · intro k inside
      have old := mapped.ref k inside
      simp only [Paging.newTable, setEntry, frame, Function.update_apply, old]
      by_cases here : k = t
      · rw [if_pos (by omega), if_pos (by omega)]
      · have same : k < t + 1 ↔ k < t := by omega
        rw [if_neg (by omega)]
        simp only [same]

/-- The directory leads to the table of a frame. -/
theorem MappedTo.lookup (mapped : pg.MappedTo b n t f) (room : b + 255 ≤ 2 ^ 10) (few : t ≤ 255)
    (inside : g < 1024 * (t + 1)) :
    pg.lookupPte pg.pde (vertualMem + pageSize * g) = some (tableFor b (g / 1024), g % 1024) ∧
      Entry.Present (pg.entry pg.pde ((vertualMem + pageSize * g) / 2 ^ 22)) := by
  have run : (vertualMem + pageSize * g) / 2 ^ 22 = 768 + g / 1024 := by
    simp only [vertualMem, pageSize]
    omega
  have offset : (vertualMem + pageSize * g) / 2 ^ 12 % 2 ^ 10 = g % 1024 := by
    simp only [vertualMem, pageSize]
    omega
  have entry := mapped.directory (768 + g / 1024) (by omega)
  rw [if_pos (by omega), Nat.add_sub_cancel_left, ← mapped.pde] at entry
  have narrow : tableFor b (g / 1024) < 2 ^ 10 := tableFor_lt few room (by omega)
  have fields := @entryFor_fields (tableFor b (g / 1024)) 7 (by decide)
  have present : Entry.Present (pg.entry pg.pde (768 + g / 1024)) := by
    rw [entry, Entry.Present, fields.2.1]
  rw [lookupPte, run, offset, if_pos present, entry, fields.1]
  exact ⟨rfl, by rwa [← entry]⟩

/-- The frame `f` is mapped too. -/
theorem MappedTo.write (mapped : pg.MappedTo b n t f) (low : 2 ≤ b) (start : b ≤ f)
    (inside : f < 1024 * (t + 1)) (small : f < 2 ^ 18) :
    (pg.setEntry (tableFor b (f / 1024)) (f % 1024) (entryFor f 3)).MappedTo b n t (f + 1) := by
  have apart : tableFor b (f / 1024) ≠ 0 := tableFor_ne_zero low
  refine ⟨mapped.pde, mapped.base, mapped.count, mapped.inited, fun j inside => ?_, fun g within => ?_,
    mapped.sound, mapped.size, mapped.ref⟩
  · rw [entry_setEntry_of_frame apart.symm]
    exact mapped.directory j inside
  · have old := mapped.words g within
    by_cases here : g = f
    · subst here
      rw [entry_setEntry_self (entryFor_lt (by omega) (by decide)), if_pos (by omega)]
    · have same : b ≤ g ∧ g < f + 1 ↔ b ≤ g ∧ g < f := by omega
      simp only [same]
      refine Eq.trans ?_ old
      by_cases table : tableFor b (g / 1024) = tableFor b (f / 1024)
      · have run := tableFor_injective low table
        rw [table]
        exact entry_setEntry_of_index (by omega)
      · exact entry_setEntry_of_frame table

/-- A round whose table is there maps its frame. -/
theorem MappedTo.round (mapped : pg.MappedTo b n t f) (low : 2 ≤ b) (start : b ≤ f)
    (inside : f < 1024 * (t + 1)) {before : Paging}
    (got : before.getPte VmState.allocOne before.pde (vertualMem + pageSize * f) =
      .ok (some (tableFor b (f / 1024), f % 1024), pg)) (last : f < e) (ends : e < 2 ^ 18) :
    ∃ after, mapRound (pageSize * e) (vertualMem + pageSize * f, before) =
        .inl (vertualMem + pageSize * (f + 1), after) ∧ after.MappedTo b n t (f + 1) := by
  refine ⟨_, ?_, mapped.write low start inside (by omega)⟩
  have more : vertualMem + pageSize * f < (pageSize * e + vertualMem) % 2 ^ 32 := by
    simp only [vertualMem, pageSize]
    omega
  have frame : (vertualMem + pageSize * f + 2 ^ 32 - vertualMem) % 2 ^ 32 / 2 ^ 12 = f := by
    simp only [vertualMem, pageSize]
    omega
  have next : (vertualMem + pageSize * f + pageSize) % 2 ^ 32 = vertualMem + pageSize * (f + 1) := by
    simp only [vertualMem, pageSize]
    omega
  have clear : pg.entry (tableFor b (f / 1024)) (f % 1024) / 2 ^ 9 % 2 ^ 3 = 0 := by
    rw [mapped.words f inside, if_neg (by omega)]
    split
    · exact (entryFor_fields (by decide)).2.2
    · rfl
  have sign : (pg.setEntry (tableFor b (f / 1024)) (f % 1024)
      (Entry.setSign (pg.entry (tableFor b (f / 1024)) (f % 1024)) 3)).entry
        (tableFor b (f / 1024)) (f % 1024) =
      Entry.setSign (pg.entry (tableFor b (f / 1024)) (f % 1024)) 3 :=
    entry_setEntry_self (Entry.setSign_lt entry_lt)
  have written := @setFields_eq f 3 (pg.entry (tableFor b (f / 1024)) (f % 1024)) (by omega)
    (by decide) clear
  simp only [mapRound, if_pos more, got, deref, attempt, bind, Except.bind, sign, frame, written,
    setEntry_setEntry, next]

/-- One round: the frame at which a new table begins is the first that needs it. -/
theorem MappedTo.step (mapped : pg.MappedTo b n ((f - 1) / 1024) f) (low : 2 ≤ b)
    (room : b + 255 ≤ 2 ^ 10) (many : 255 < n) (start : b ≤ f) (last : f < e) (ends : e < 2 ^ 18) :
    ∃ after, mapRound (pageSize * e) (vertualMem + pageSize * f, pg) =
        .inl (vertualMem + pageSize * (f + 1), after) ∧ after.MappedTo b n (f / 1024) (f + 1) := by
  by_cases there : f / 1024 = (f - 1) / 1024
  · rw [← there] at mapped
    obtain ⟨lookup, present⟩ := @MappedTo.lookup _ _ _ _ _ f mapped room (by omega) (by omega)
    refine mapped.round low start (by omega) ?_ last ends
    rw [getPte, if_pos present, lookup]
  · have next : f / 1024 = (f - 1) / 1024 + 1 := by omega
    obtain ⟨middle, allocated, mapped'⟩ := mapped.newTable low room (by omega) many (by omega)
    have run : (vertualMem + pageSize * f) / 2 ^ 22 = 768 + ((f - 1) / 1024 + 1) := by
      simp only [vertualMem, pageSize]
      omega
    have missing : ¬ Entry.Present (pg.entry pg.pde ((vertualMem + pageSize * f) / 2 ^ 22)) := by
      have entry := mapped.directory (768 + ((f - 1) / 1024 + 1)) (by omega)
      rw [if_neg (by omega), ← run] at entry
      rw [mapped.pde, entry]
      exact Entry.not_present_zero
    have entry := mapped'.directory (768 + ((f - 1) / 1024 + 1)) (by omega)
    rw [if_pos (by omega), Nat.add_sub_cancel_left] at entry
    have offset : (vertualMem + pageSize * f) / 2 ^ 12 % 2 ^ 10 = f % 1024 := by
      simp only [vertualMem, pageSize]
      omega
    rw [next]
    refine mapped'.round low start (by omega) ?_ last ends
    rw [getPte, if_neg missing, allocated]
    rw [← mapped.pde] at entry
    have frame := (@entryFor_fields (tableFor b ((f - 1) / 1024 + 1)) 7 (by decide)).1
    simp only [bind, Except.bind, derefPage_together, run, offset, entry, frame, next]

/-- The whole loop. -/
theorem MappedTo.run (rounds extra : Nat) (mapped : pg.MappedTo b n ((f - 1) / 1024) f) (low : 2 ≤ b)
    (room : b + 255 ≤ 2 ^ 10) (many : 255 < n) (start : b ≤ f) (last : f + rounds = e)
    (ends : e < 2 ^ 18) :
    ∃ after, loop (mapRound (pageSize * e)) (rounds + 1 + extra) (vertualMem + pageSize * f, pg) =
        some (.ok after) ∧ after.MappedTo b n ((e - 1) / 1024) e := by
  induction rounds generalizing f pg with
  | zero =>
      obtain rfl : f = e := last
      refine ⟨pg, ?_, mapped⟩
      have left : mapRound (pageSize * f) (vertualMem + pageSize * f, pg) = .inr (.ok pg) := by
        have stop : ¬ vertualMem + pageSize * f < (pageSize * f + vertualMem) % 2 ^ 32 := by
          have small := Nat.mod_le (pageSize * f + vertualMem) (2 ^ 32)
          omega
        simp only [mapRound, if_neg stop]
      rw [Nat.zero_add, Nat.add_comm 1 extra]
      exact loop_exit left
  | succ rounds ih =>
      obtain ⟨middle, again, mapped'⟩ := mapped.step low room many start (by omega) ends
      have mapped'' : middle.MappedTo b n ((f + 1 - 1) / 1024) (f + 1) := mapped'
      obtain ⟨after, done, final⟩ := ih mapped'' (by omega) (by omega)
      refine ⟨after, ?_, final⟩
      rw [show rounds + 1 + 1 + extra = rounds + 1 + extra + 1 by omega, loop_next again]
      exact done

end Rounds

/-! ## What the machine starts with -/

section Boot

variable {pg : Paging} {b n t e j p kernStart kernEnd fuel nullIndex : Nat} {memmap : List E820Entry}
  {entry : E820Entry}

theorem fillEntries_inited {frame count : Nat} {value : Nat → Nat → Nat} :
    (pg.fillEntries frame count value).isVmmInited = pg.isVmmInited := by
  induction count with
  | zero => rw [fillEntries_zero]
  | succ count ih =>
      rw [fillEntries_succ]
      exact ih

/-- What `kern_init` leaves in its two frames. -/
theorem kernInit_entry (kernel : kernStart / 2 ^ 22 = 768) (inside : j < 1024) :
    (pg.kernInit kernStart).entry 0 j = (if j = 0 ∨ j = 768 then entryFor 1 7 else 0) ∧
      (pg.kernInit kernStart).entry 1 j = entryFor j 7 := by
  let cleared := pg.fillEntries 0 (pageSize / 4) fun _ _ => 0
  let first := cleared.setEntry 0 0 (allFields (0x1000 / 2 ^ 12) (cleared.entry 0 0))
  let both := first.setEntry 0 768 (allFields (0x1000 / 2 ^ 12) (first.entry 0 768))
  have whole (frame i : Nat) : (pg.kernInit kernStart).entry frame i =
      (both.fillEntries 1 (pageSize / 4) allFields).entry frame i := by
    simp only [kernInit, kernel, both, first, cleared, Paging.entry]
  have size : pageSize / 4 = 1024 := rfl
  have entry {old : Nat} : allFields (0x1000 / 2 ^ 12) old = entryFor 1 7 := allFields_eq (by decide)
  have narrow : entryFor 1 7 < 2 ^ 32 := by decide
  constructor
  · rw [whole, fillEntries_entry fun _ _ => allFields_lt, if_neg (by omega)]
    by_cases second : j = 768
    · subst second
      rw [entry_setEntry_self (by rw [entry]; exact narrow), entry, if_pos (.inr rfl)]
    · rw [entry_setEntry_of_index second]
      by_cases zero : j = 0
      · subst zero
        rw [entry_setEntry_self (by rw [entry]; exact narrow), entry, if_pos (.inl rfl)]
      · rw [entry_setEntry_of_index zero, if_neg (by omega),
          fillEntries_entry (fun _ _ => (by decide : 0 < 2 ^ 32)), if_pos ⟨rfl, inside⟩]
  · rw [whole, fillEntries_entry fun _ _ => allFields_lt, if_pos ⟨rfl, inside⟩, allFields_eq (by omega)]

theorem kernInit_pde : (pg.kernInit kernStart).pde = 0 := by
  simp only [kernInit]

theorem kernInit_inited : (pg.kernInit kernStart).isVmmInited = pg.isVmmInited := by
  simp only [kernInit, fillEntries_inited, setEntry]

theorem pageInit_size {nodes : Links PageNode} : (FreeArea.pageInit nodes n).freePages 0 = n - 0 := by
  simp only [FreeArea.pageInit, Function.update_self, Nat.sub_zero]

/-- The kernel is in the first 4 MB, which are mapped. -/
theorem mapped_of_entries {nodes : Links PageNode} {va : Nat → Nat} (pde : pg.pde = 0)
    (inited : pg.isVmmInited = false)
    (directory : ∀ j < 1024, pg.entry 0 j = if j = 0 ∨ j = 768 then entryFor 1 7 else 0)
    (words : ∀ g < 1024, pg.entry 1 g = entryFor g 7) :
    { pg with
      area := FreeArea.pageInit nodes n, count := n, base := b, ref := fun _ => 0, va }.MappedTo b n 0 b where
  pde := pde
  base := rfl
  count := rfl
  inited := inited
  directory j inside := by
    refine (directory j inside).trans ?_
    have same : j = 0 ∨ 768 ≤ j ∧ j ≤ 768 + 0 ↔ j = 0 ∨ j = 768 := by omega
    simp only [same]
    split
    · rw [tableFor, if_pos (by omega)]
    · rfl
  words g inside := by
    have zero : g / 1024 = 0 := by omega
    rw [zero, Nat.mod_eq_of_lt (by omega), if_neg (by omega), if_pos (by omega)]
    exact words g (by omega)
  sound := PageState.Sound.init nodes
  size := pageInit_size
  ref k _ := rfl

theorem MappedTo.tables (mapped : pg.MappedTo b n t e) (inside : j < 1024) :
    (pg.HasTable j ↔ j = 0 ∨ 768 ≤ j ∧ j ≤ 768 + t) ∧
      (pg.HasTable j → pg.table j = tableFor b (j - 768)) := by
  have entry : pg.entry pg.pde j =
      if j = 0 ∨ 768 ≤ j ∧ j ≤ 768 + t then entryFor (tableFor b (j - 768)) 7 else 0 := by
    rw [mapped.pde]
    exact mapped.directory j inside
  have fields := @entryFor_fields (tableFor b (j - 768)) 7 (by decide)
  by_cases here : j = 0 ∨ 768 ≤ j ∧ j ≤ 768 + t
  · rw [if_pos here] at entry
    refine ⟨iff_of_true ?_ here, fun _ => ?_⟩
    · rw [HasTable, entry, Entry.Present, fields.2.1]
    · rw [Paging.table, entry, fields.1]
  · rw [if_neg here] at entry
    have missing : ¬ pg.HasTable j := by
      rw [HasTable, entry]
      exact Entry.not_present_zero
    exact ⟨iff_of_false missing here, fun has => absurd has missing⟩

/-- What the directory has at the place of a frame that is mapped. -/
theorem MappedTo.pte {g : Nat} (mapped : pg.MappedTo b n t e) (start : b ≤ g) (inside : g < e)
    (covered : e ≤ 1024 * (t + 1)) (few : t ≤ 255) : pg.pte (directPage g) = entryFor g 3 := by
  have run : directPage g / 2 ^ 10 = 768 + g / 1024 := by
    simp only [directPage]
    omega
  have offset : directPage g % 2 ^ 10 = g % 1024 := by
    simp only [directPage]
    omega
  obtain ⟨has, table⟩ := mapped.tables (j := 768 + g / 1024) (by omega)
  have there : pg.HasTable (768 + g / 1024) := has.mpr (by omega)
  rw [Nat.add_sub_cancel_left] at table
  have word := mapped.words g (by omega)
  rw [if_pos ⟨start, inside⟩] at word
  rw [pte_of_table (by rw [run]; exact there), run, offset, table there, word]

/-- The machine after `vmm_init`, when `malloc` has left these pages. -/
def withMm (pg : Paging) (area : FreeArea) : Paging :=
  { { pg with area := { area with nodes := listInit area.nodes .vmFifo } } with
    mm := VmaList.createMm, pde := 0, isVmmInited := true }

theorem MappedTo.withMm_tables {area : FreeArea} (mapped : pg.MappedTo b n t e) :
    ((pg.withMm area).HasTable j ↔ pg.HasTable j) ∧ (pg.withMm area).table j = pg.table j :=
  hasTable_congr mapped.pde.symm rfl

theorem MappedTo.withMm_pte {area : FreeArea} {v : Nat} (mapped : pg.MappedTo b n t e) :
    (pg.withMm area).pte v = pg.pte v :=
  pte_of_memory mapped.pde.symm rfl

/-- Every entry of a user page is missing, and the frames that are not free are tables. -/
theorem MappedTo.start (mapped : pg.MappedTo b n t e) (low : 2 ≤ b) (covered : e ≤ 1024 * (t + 1))
    (few : t ≤ 255) (whole : b + n ≤ e) (ends : e < 2 ^ 18)
    (tlb : ∀ v, pg.tlb v = none) {area : FreeArea}
    (sound : PageState.Sound n { area, blocks := [(t, 1)] } (List.range' (t + 1) (n - (t + 1)))) :
    VmState.Start { pg := pg.withMm area, blocks := [(t, 1)] } := by
  let after : Paging := pg.withMm area
  have same (i : Nat) : (after.HasTable i ↔ pg.HasTable i) ∧ after.table i = pg.table i :=
    mapped.withMm_tables
  have noUser (i : Nat) (user : UserTable i) : ¬ after.HasTable i := by
    simp only [UserTable] at user
    rw [(same i).1, (mapped.tables (by omega)).1]
    omega
  have absent (v : Nat) (user : UserPage v) : ¬ Entry.Present (after.pte v) :=
    fun present => noUser _ user.table (hasTable_of_present present)
  have table (i : Nat) (inside : i < 1024) (has : after.HasTable i) :
      after.table i = tableFor b (i - 768) := by
    rw [(same i).2]
    exact (mapped.tables inside).2 ((same i).1.mp has)
  have base : after.base = b := mapped.base
  have count : after.count = n := mapped.count
  have mapping : after.Mapping := by
    refine ⟨fun i inside has => ?_, fun i j user _ has => absurd has (noUser i user),
      fun v user present => absurd present (absent v user), fun p inside _ => ?_, ?_⟩
    · rw [table i inside has]
      exact tableFor_ne_zero low
    · rw [count] at inside
      have word := mapped.pte (g := b + p) (by omega) (by omega) covered few
      rw [base, mapped.withMm_pte, word]
      exact (entryFor_fields (by decide)).1
    · rw [base, count]
      omega
  have notTable (p : Nat) (above : t ≤ p) : after.NotTable (after.base + p) := by
    rw [base]
    refine ⟨?_, fun i small has equal => ?_⟩
    · change b + p ≠ 0
      omega
    · have last := (mapped.tables small).1.mp ((same i).1.mp has)
      rw [table i small has, tableFor] at equal
      split at equal <;> omega
  have ref (p : Nat) (inside : p < after.count) (notTable : after.NotTable (after.base + p)) :
      after.ref (after.base + p) = 0 := by
    rw [count] at inside
    rw [base] at notTable ⊢
    refine (mapped.ref p inside).trans (if_neg fun below => ?_)
    have has := (same (768 + (p + 1))).1.mpr ((mapped.tables (by omega)).1.mpr (by omega))
    refine notTable.2 (768 + (p + 1)) (by omega) has ?_
    rw [table _ (by omega) has, Nat.add_sub_cancel_left]
    rfl
  have queues : PageState.Queues after.count { area := after.area, blocks := [(t, 1)] }
      (List.range' (t + 1) (n - (t + 1))) [] := by
    rw [count]
    exact .init sound
  refine ⟨rfl, mapping, noUser, ⟨_, queues, fun p held => notTable p ?_⟩, ref, tlb⟩
  rcases held with free | ⟨block, member, inBlock⟩
  · rw [List.mem_range'_1] at free
    omega
  · obtain rfl := List.mem_singleton.mp member
    exact inBlock.1

theorem pageInitFrom_none {i : Nat} {state : PagePool × Paging} {rest : List E820Entry}
    (none : rest.filter (fun entry => entry.type = 1) = []) :
    pageInitFrom fuel kernEnd (i + 1) state rest = .ok state := by
  induction rest generalizing i state with
  | nil => rfl
  | cons first rest ih =>
      have unusable : ¬ (first.type = 1 ∧ i + 1 ≠ 0) := by
        intro both
        rw [List.filter_cons_of_pos (by simpa using both.1)] at none
        cases none
      rw [List.filter_cons_of_neg (by simpa using unusable)] at none
      rw [pageInitFrom, if_neg unusable]
      exact ih none

/-- From the second element on there is one usable region. -/
theorem pageInitFrom_one {i : Nat} {state : PagePool × Paging} {rest : List E820Entry}
    (one : rest.filter (fun entry => entry.type = 1) = [entry]) :
    pageInitFrom fuel kernEnd (i + 1) state rest = setUpPool fuel kernEnd entry state := by
  induction rest generalizing i state with
  | nil => cases one
  | cons first rest ih =>
      rw [pageInitFrom]
      by_cases usable : first.type = 1
      · rw [List.filter_cons_of_pos (by simpa using usable)] at one
        obtain ⟨rfl, others⟩ := List.cons.inj one
        rw [if_pos ⟨usable, by omega⟩]
        cases done : setUpPool fuel kernEnd first state with
        | error error => rfl
        | ok state => exact pageInitFrom_none others
      · rw [List.filter_cons_of_neg (by simpa using usable)] at one
        rw [if_neg fun both => usable both.1]
        exact ih one

/-- One usable region behind the first has room for the full pool, ends below 1 GB, and the kernel is
small enough for all tables to be in the first 4 MB. -/
structure Roomy (kernEnd : Nat) (memmap : List E820Entry) (entry : E820Entry) : Prop where
  one : (memmap.drop 1).filter (fun entry => entry.type = 1) = [entry]
  high : vertualMem ≤ kernEnd
  low : kernEnd ≤ vertualMem + 2 ^ 21
  room : roundUp (kernEnd - vertualMem) + (PagePool.arrayFrames + maxPageNum) * pageSize ≤
    roundDown entry.freeMemEnd
  below : entry.freeMemEnd < 2 ^ 30

/-- The first `malloc` takes a page of its own. -/
theorem MappedTo.vmmInit (mapped : pg.MappedTo b n t e) (more : t + 1 < n) (enough : 0 < fuel)
    (header : Nat → Header) (chunks : Links ChunkNode) :
    ∃ area heap, pg.vmmInit nullIndex fuel (Heap.mallocInit header chunks) =
        .ok (pg.withMm area, heap) ∧
      PageState.Sound n { area, blocks := [(t, 1)] } (List.range' (t + 1) (n - (t + 1))) := by
  obtain ⟨area, served, sound, -⟩ := alloc_front mapped.sound mapped.size more
  have search : (Heap.mallocInit header chunks).search fuel ((chunkSize + sizeofMm) % 2 ^ 32) =
      some none := Heap.search_eq (Heap.mallocInit_represents header chunks) enough
  have one : Heap.needPageNum ((chunkSize + sizeofMm) % 2 ^ 32) = 1 := by decide
  rw [← mapped.count] at served
  have allocated : pg.allocPage 1 = .ok (some (pg.base + t), { pg with area }) := by
    rw [allocPage_served served, if_neg (by rw [mapped.inited]; decide)]
    rfl
  refine ⟨area, (Heap.mallocInit header chunks).extend sizeofMm ((chunkSize + sizeofMm) % 2 ^ 32)
    (pgToAddrLa (pg.base + t)), ?_, sound⟩
  simp only [Paging.vmmInit, malloc, search, one, allocated, bind, Except.bind, setNodes,
    withMm]

theorem roundDown_le (addr : Nat) : roundDown addr ≤ addr := Nat.sub_le _ _

/-- The pool begins at frame `b` and the loop maps the frames up to `e`. -/
theorem setUpPool_done (inited : pg.isVmmInited = false) (kernel : kernStart / 2 ^ 22 = 768)
    (roomy : Roomy kernEnd memmap entry) (enough : 2 ^ 18 ≤ fuel) (before : PagePool) :
    ∃ b e pool after, 2 ≤ b ∧ b + 255 ≤ 2 ^ 10 ∧ b + maxPageNum ≤ e ∧ e < 2 ^ 18 ∧
      setUpPool fuel kernEnd entry (before, pg.kernInit kernStart) = .ok (pool, after) ∧
      after.MappedTo b maxPageNum ((e - 1) / 1024) e ∧ ∀ v, after.tlb v = none := by
  have word : kernEnd < 2 ^ 32 := by
    have low := roomy.low
    simp only [vertualMem] at low
    omega
  obtain ⟨k, e, r, start, pages, ptEnd, ends, begins, low, first, below, num, lower, upper⟩ :=
    @PagePool.layOut_frames kernEnd before entry roomy.high word
  obtain ⟨-, full, array, -, -⟩ := PagePool.pool_numbers low first below num lower upper
  have room := roomy.room
  rw [start, ← ptEnd, ends] at room
  have large : k + (PagePool.arrayFrames + maxPageNum) ≤ e := by
    simp only [pageSize, PagePool.arrayFrames, maxPageNum] at room ⊢
    omega
  have count := full large
  have begin : (before.layOut kernEnd entry).ptBegin = pageSize * (k + PagePool.arrayFrames) := by
    rw [begins, Nat.add_assoc, array count]
  have small : k ≤ 513 := by
    have kernelEnd := roomy.low
    have near := @PagePool.roundUp_eq (kernEnd - vertualMem) (by simp only [vertualMem] at *; omega)
    rw [start] at near
    simp only [pageSize, vertualMem] at near kernelEnd
    omega
  have narrow : e < 2 ^ 18 := by
    have last := roomy.below
    have down := roundDown_le entry.freeMemEnd
    rw [← ptEnd, ends] at down
    simp only [pageSize] at down
    omega
  have area : (before.layOut kernEnd entry).area = FreeArea.pageInit before.area.nodes maxPageNum := by
    rw [← count]
    rfl
  have whole : k + 176 + maxPageNum ≤ e := by
    rw [Nat.add_assoc]
    exact large
  have beyond : k + 176 ≤ e := Nat.le_of_add_right_le whole
  simp only [PagePool.arrayFrames] at begin
  have base : (before.layOut kernEnd entry).ptBegin / pageSize = k + 176 := by
    rw [begin, Nat.mul_div_cancel_left _ (by decide)]
  have begins_at : ((before.layOut kernEnd entry).ptBegin + vertualMem) % 2 ^ 32 =
      vertualMem + pageSize * (k + 176) := by
    rw [begin]
    simp only [pageSize, vertualMem]
    omega
  have mapped : { pg.kernInit kernStart with
      area := FreeArea.pageInit before.area.nodes maxPageNum, count := maxPageNum, base := k + 176
      ref := fun _ => 0, va := fun _ => 0 }.MappedTo (k + 176) maxPageNum ((k + 176 - 1) / 1024)
        (k + 176) := by
    rw [show (k + 176 - 1) / 1024 = 0 by omega]
    exact mapped_of_entries kernInit_pde (kernInit_inited.trans inited)
      (fun _ inside => (kernInit_entry kernel inside).1)
      (fun _ inside => (kernInit_entry kernel inside).2)
  obtain ⟨after, done, final⟩ := MappedTo.run (e - (k + 176)) (fuel - (e - (k + 176) + 1)) mapped
    (by omega) (by omega) (by decide) (Nat.le_refl _) (by omega) narrow
  rw [show e - (k + 176) + 1 + (fuel - (e - (k + 176) + 1)) = fuel by omega, ← ends, ← begins_at]
    at done
  refine ⟨k + 176, e, before.layOut kernEnd entry, { after with tlb := fun _ => none }, by omega,
    by omega, whole, narrow, ?_, ?_, fun _ => rfl⟩
  · simp only [setUpPool, mapPool, area, count, base, done, bind, Except.bind, Option.getD_some]
  · exact { pde := final.pde, base := final.base, count := final.count, inited := final.inited
            directory := final.directory, words := final.words, sound := final.sound
            size := final.size, ref := final.ref }

/-- After `kern_init` and `init` the machine is in a state from which the virtual memory starts: every
frame of the pool is mapped for the kernel alone, and all tables are where the kernel could reach them
from the beginning. -/
theorem boot_start (inited : pg.isVmmInited = false) (kernel : kernStart / 2 ^ 22 = 768)
    (roomy : Roomy kernEnd memmap entry) (enough : 2 ^ 18 ≤ fuel) (nodes : Links PageNode)
    (header : Nat → Header) (chunks : Links ChunkNode) :
    ∃ after heap heapPage,
      pg.bootMemory nullIndex fuel kernStart kernEnd memmap nodes header chunks = .ok (after, heap) ∧
      VmState.Start { pg := after, blocks := [(heapPage, 1)] } ∧ after.count = maxPageNum ∧
      (∀ p < after.count, after.pte (directPage (after.base + p)) = entryFor (after.base + p) 3) ∧
      ∀ i < 1024, after.HasTable i → after.table i < 2 ^ 10 := by
  obtain ⟨b, e, pool, mapped, low, room, whole, ends, done, maps, tlb⟩ :=
    setUpPool_done inited kernel roomy enough (.blank nodes)
  have inits : pageInitFrom fuel kernEnd 0 (.blank nodes, pg.kernInit kernStart) memmap =
      .ok (pool, mapped) := by
    cases memmap with
    | nil => exact nomatch roomy.one
    | cons first rest =>
        rw [pageInitFrom, if_neg fun both => both.2 rfl, ← done]
        exact pageInitFrom_one roomy.one
  have few : (e - 1) / 1024 ≤ 255 := by omega
  have covered : e ≤ 1024 * ((e - 1) / 1024 + 1) := by omega
  have more : (e - 1) / 1024 + 1 < maxPageNum :=
    Nat.lt_of_le_of_lt (Nat.succ_le_succ few) (by decide)
  obtain ⟨area, heap, started, sound⟩ := @MappedTo.vmmInit _ b maxPageNum _ e fuel nullIndex maps more
    (by omega) header chunks
  refine ⟨_, heap, (e - 1) / 1024, ?_, maps.start low covered few whole ends tlb sound, maps.count,
    fun p inside => ?_, fun i inside has => ?_⟩
  · simp only [bootMemory, inits, bind, Except.bind]
    exact started
  · have base : mapped.base = b := maps.base
    have below : p < maxPageNum := by rwa [← maps.count]
    rw [maps.withMm_pte]
    change mapped.pte (directPage (mapped.base + p)) = entryFor (mapped.base + p) 3
    rw [base]
    exact maps.pte (by omega) (by omega) covered few
  · have there := maps.withMm_tables.1.mp has
    have last := (maps.tables inside).1.mp there
    rw [maps.withMm_tables.2, (maps.tables inside).2 there]
    exact tableFor_lt few room (by omega)

/-- A machine before `kern_init`, with no page and nothing in its memory. -/
def poweredOn : Paging where
  memory := fun _ => Bytes.zero
  disk := fun _ => Bytes.zero
  ref := fun _ => 0
  va := fun _ => 0
  area := { nodes := { next := id, prev := id }, freePages := fun _ => 0, flags := fun _ => 0
            freePageNum := 0 }
  count := 0
  base := 0
  isVmmInited := false
  mm := VmaList.createMm
  pde := 0
  tlb := fun _ => none

theorem largeMap_roomy : Roomy 0xC0132000 PagePool.largeMap
    { baseLo := 0x100000, baseHi := 0, lengthLo := 0x7EE0000, lengthHi := 0, type := 1 } where
  one := rfl
  high := by decide
  low := by decide
  room := by decide
  below := by decide

theorem boot_start_large : ∃ after heap heapPage,
    poweredOn.bootMemory nullBelow (2 ^ 18) 0xC0100400 0xC0132000 PagePool.largeMap
        { next := id, prev := id } (fun _ => { allocated := false, size := 0 })
        { next := id, prev := id } = .ok (after, heap) ∧
      VmState.Start { pg := after, blocks := [(heapPage, 1)] } ∧ after.count = maxPageNum ∧
      (∀ p < after.count, after.pte (directPage (after.base + p)) = entryFor (after.base + p) 3) ∧
      ∀ i < 1024, after.HasTable i → after.table i < 2 ^ 10 :=
  boot_start rfl (by decide) largeMap_roomy (Nat.le_refl _) _ _ _

end Boot

end Paging

end WindOs.Mm
