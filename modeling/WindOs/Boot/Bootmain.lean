import WindOs.Data.Loop
import WindOs.Data.Overlay

namespace WindOs.Boot

open Data

/-! # The boot loader

`bootmain` reads the beginning of the kernel's ELF file to 0x10000, and then every segment to where
it belongs.  The disk is read sector by sector, so that more is written than was asked for.
-/

/-- What the controller makes of the ports 0x1F3 to 0x1F6: the drive and the sector. -/
def selected (low mid high device : Nat) : Nat × Nat :=
  (device / 2 ^ 4 % 2, low + 2 ^ 8 * mid + 2 ^ 16 * high + 2 ^ 24 * (device % 2 ^ 4))

/-- `readsect(dst, offset)` of the boot loader -/
def readsect (drives : Nat → Disk) (memory : Bytes) (dst offset : Nat) : Bytes :=
  let (drive, sector) := selected (offset % 2 ^ 8) (offset / 2 ^ 8 % 2 ^ 8)
    (offset / 2 ^ 16 % 2 ^ 8) ((offset / 2 ^ 24 ||| 0xE0) % 2 ^ 8)
  memory.overlay dst Disk.sectSize (drives drive sector)

/-- One round of the loop of `readseg`, with the variables `pa` and `offset`. -/
def readRound (drives : Nat → Disk) (epa : Nat) : Nat × Nat × Bytes → (Nat × Nat × Bytes) ⊕ Bytes
  | (pa, offset, memory) =>
      if pa < epa then
        .inl ((pa + Disk.sectSize) % 2 ^ 32, (offset + 1) % 2 ^ 32,
          readsect drives memory pa offset)
      else .inr memory

def readseg (fuel : Nat) (drives : Nat → Disk) (memory : Bytes) (pa count offset : Nat) :
    Option Bytes :=
  let epa := (pa + count) % 2 ^ 32
  let pa := (pa + 2 ^ 32 - offset % Disk.sectSize) % 2 ^ 32
  loop (readRound drives epa) fuel (pa, offset / Disk.sectSize + 1, memory)

def elfMagic : Nat := 0x464C457F

/-- The members of `struct prog_t` that are used. -/
structure ProgramHeader where
  phOff : Nat
  phPaddr : Nat
  phFilesz : Nat
  phMemsz : Nat
deriving DecidableEq, Repr

/-- `sizeof(struct prog_t)` -/
def sizeofProg : Nat := 32

/-- The header at an address. -/
def headerAt (memory : Bytes) (ph : Nat) : ProgramHeader where
  phOff := memory.wordAt (ph + 4)
  phPaddr := memory.wordAt (ph + 12)
  phFilesz := memory.wordAt (ph + 16)
  phMemsz := memory.wordAt (ph + 20)

/-- The members of `struct elf_t` that are used, for a header at `elf`. -/
def eMagic (memory : Bytes) (elf : Nat) : Nat := memory.wordAt elf
def eEntry (memory : Bytes) (elf : Nat) : Nat := memory.wordAt (elf + 24)
def ePhoff (memory : Bytes) (elf : Nat) : Nat := memory.wordAt (elf + 28)
def ePhnum (memory : Bytes) (elf : Nat) : Nat := memory.halfAt (elf + 44)

/-- `elf`, and how much is read there. -/
def scratch : Nat := 0x10000
def scratchSize : Nat := 4096 * 20

/-- The body of the loop over the headers; `stosb` clears what the file does not have. -/
def loadSegment (fuel : Nat) (drives : Nat → Disk) (memory : Bytes) (ph : Nat) : Option Bytes := do
  let header := headerAt memory ph
  let memory ← readseg fuel drives memory header.phPaddr header.phFilesz header.phOff
  let again := headerAt memory ph
  if again.phMemsz > again.phFilesz then
    some (memory.overlay ((header.phPaddr + again.phFilesz) % 2 ^ 32)
      (again.phMemsz - again.phFilesz) Bytes.zero)
  else some memory

def segmentRound (fuel : Nat) (drives : Nat → Disk) (eph : Nat) :
    Nat × Bytes → (Nat × Bytes) ⊕ Option Bytes
  | (ph, memory) =>
      if ph < eph then
        match loadSegment fuel drives memory ph with
        | some memory => .inl ((ph + sizeofProg) % 2 ^ 32, memory)
        | none => .inr none
      else .inr (some memory)

/-- The memory and the address at which the kernel is entered, if `bootmain` does not return. -/
def bootmain (fuel : Nat) (drives : Nat → Disk) (memory : Bytes) : Option (Bytes × Option Nat) := do
  let memory ← readseg fuel drives memory scratch scratchSize 0
  if eMagic memory scratch ≠ elfMagic then some (memory, none)
  else
    let ph := (scratch + ePhoff memory scratch) % 2 ^ 32
    let eph := (ph + sizeofProg * ePhnum memory scratch) % 2 ^ 32
    let memory ← (loop (segmentRound fuel drives eph) fuel (ph, memory)).join
    some (memory, some (eEntry memory scratch))

variable {drives : Nat → Disk} {memory : Bytes} {dst sector epa pa count offset fuel : Nat}

/-- The file of the kernel begins in the sector after the boot loader. -/
def image (drives : Nat → Disk) : Bytes := fun i =>
  drives 0 (i / Disk.sectSize + 1) (i % Disk.sectSize)

/-- A sector of the first drive, as long as 28 bits hold its number. -/
theorem selected_first (fits : sector < 2 ^ 28) :
    selected (sector % 2 ^ 8) (sector / 2 ^ 8 % 2 ^ 8) (sector / 2 ^ 16 % 2 ^ 8)
      ((sector / 2 ^ 24 ||| 0xE0) % 2 ^ 8) = (0, sector) := by
  have device : ∀ high < 16, (high ||| 0xE0) % 2 ^ 8 = 0xE0 + high := by decide
  rw [device (sector / 2 ^ 24) (by omega)]
  refine Prod.ext ?_ ?_
  · simp only [selected]
    omega
  · simp only [selected]
    omega

theorem readsect_done (fits : sector + 1 < 2 ^ 28) :
    readsect drives memory dst (sector + 1) =
      memory.overlay dst Disk.sectSize ((image drives).drop (sector * Disk.sectSize)) := by
  rw [readsect, selected_first fits]
  refine Bytes.overlay_congr fun i inside => ?_
  have number : (sector * Disk.sectSize + i) / Disk.sectSize = sector := by
    rw [Nat.mul_comm, Nat.mul_add_div (by decide), Nat.div_eq_of_lt inside, Nat.add_zero]
  have place : (sector * Disk.sectSize + i) % Disk.sectSize = i := by
    rw [Nat.mul_comm, Nat.mul_add_mod, Nat.mod_eq_of_lt inside]
  simp only [Bytes.drop, image, number, place]

/-- How many sectors are read for `count` bytes, the first of them `skipped` bytes into a sector. -/
def sectorsFor (skipped count : Nat) : Nat := (skipped + count + 511) / Disk.sectSize

/-- The rounds of `readseg`, by induction on the sectors that are still to be read. -/
theorem readRounds (number : sectorsFor 0 (epa - pa) = count) (inMemory : epa + 511 < 2 ^ 32)
    (onDisk : sector + count < 2 ^ 28) (enough : count < fuel) :
    loop (readRound drives epa) fuel (pa, sector + 1, memory) =
      some (memory.overlay pa (Disk.sectSize * count)
        ((image drives).drop (sector * Disk.sectSize))) := by
  have size : Disk.sectSize = 512 := rfl
  simp only [sectorsFor, size] at number
  induction count generalizing fuel pa sector memory with
  | zero =>
      obtain ⟨fuel, rfl⟩ : ∃ less, fuel = less + 1 := ⟨fuel - 1, by omega⟩
      have ended : ¬ pa < epa := by omega
      rw [loop_exit (by rw [readRound, if_neg ended]), Nat.mul_zero, Bytes.overlay_zero]
  | succ count ih =>
      obtain ⟨fuel, rfl⟩ : ∃ less, fuel = less + 1 := ⟨fuel - 1, by omega⟩
      have again : pa < epa := by omega
      have round : readRound drives epa (pa, sector + 1, memory) =
          .inl (pa + 512, sector + 1 + 1, memory.overlay pa Disk.sectSize
            ((image drives).drop (sector * Disk.sectSize))) := by
        rw [readRound, if_pos again, readsect_done (by omega), size,
          Nat.mod_eq_of_lt (show pa + 512 < 2 ^ 32 by omega),
          Nat.mod_eq_of_lt (show sector + 1 + 1 < 2 ^ 32 by omega)]
      have next : (image drives).drop ((sector + 1) * Disk.sectSize) =
          ((image drives).drop (sector * Disk.sectSize)).drop Disk.sectSize := by
        rw [Bytes.drop_drop, Nat.succ_mul]
      rw [loop_next round, ih (by omega) (by omega) (by omega), next, ← size,
        Bytes.overlay_append, Nat.mul_succ, Nat.add_comm Disk.sectSize]

/-- `readseg` reads whole sectors, from the one that the first byte is in. -/
theorem readseg_done (room : offset % Disk.sectSize ≤ pa) (inMemory : pa + count + 511 < 2 ^ 32)
    (offsetFits : offset < 2 ^ 32) (enough : 2 ^ 24 ≤ fuel) :
    readseg fuel drives memory pa count offset =
      some (memory.overlay (pa - offset % Disk.sectSize)
        (Disk.sectSize * sectorsFor (offset % Disk.sectSize) count)
        ((image drives).drop (offset - offset % Disk.sectSize))) := by
  have size : Disk.sectSize = 512 := rfl
  have first : offset / Disk.sectSize * Disk.sectSize = offset - offset % Disk.sectSize := by
    rw [size]
    omega
  have start : (pa + 2 ^ 32 - offset % Disk.sectSize) % 2 ^ 32 = pa - offset % Disk.sectSize := by
    rw [size] at room ⊢
    omega
  rw [readseg, start, Nat.mod_eq_of_lt (show pa + count < 2 ^ 32 by omega), ← first]
  refine readRounds ?_ inMemory ?_ ?_
  · simp only [sectorsFor, size] at room ⊢
    congr 1
    omega
  · simp only [sectorsFor, size]
    omega
  · simp only [sectorsFor, size]
    omega

namespace ProgramHeader

/-- The first byte that is written for a segment: the sector is read from its beginning. -/
def first (header : ProgramHeader) : Nat := header.phPaddr - header.phOff % Disk.sectSize

/-- The byte after the last one that is read. -/
def readEnd (header : ProgramHeader) : Nat :=
  header.first + Disk.sectSize * sectorsFor (header.phOff % Disk.sectSize) header.phFilesz

/-- The byte after the last one that is written. -/
def last (header : ProgramHeader) : Nat := max header.readEnd (header.phPaddr + header.phMemsz)

/-- How many bytes are the segment's own. -/
def size (header : ProgramHeader) : Nat := max header.phFilesz header.phMemsz

/-- What is written for the segment does not go around the end of the address space. -/
structure Placed (header : ProgramHeader) : Prop where
  room : header.phOff % Disk.sectSize ≤ header.phPaddr
  inMemory : header.phPaddr + header.phFilesz + 511 < 2 ^ 32
  cleared : header.phPaddr + header.phMemsz < 2 ^ 32

/-- The bytes of the file, and zeros after them. -/
structure LoadedFrom (header : ProgramHeader) (file memory : Bytes) : Prop where
  bytes : ∀ i < header.phFilesz, memory (header.phPaddr + i) = file (header.phOff + i)
  zeros : ∀ i, header.phFilesz ≤ i → i < header.phMemsz → memory (header.phPaddr + i) = 0

variable {header : ProgramHeader} {file other : Bytes}

instance : Decidable header.Placed :=
  decidable_of_iff
    (header.phOff % Disk.sectSize ≤ header.phPaddr ∧
      header.phPaddr + header.phFilesz + 511 < 2 ^ 32 ∧ header.phPaddr + header.phMemsz < 2 ^ 32)
    ⟨fun h => ⟨h.1, h.2.1, h.2.2⟩, fun h => ⟨h.room, h.inMemory, h.cleared⟩⟩

/-- A segment stays loaded when something else is written. -/
theorem LoadedFrom.congr (loaded : header.LoadedFrom file memory)
    (same : ∀ i < header.size, other (header.phPaddr + i) = memory (header.phPaddr + i)) :
    header.LoadedFrom file other where
  bytes i inside := by
    rw [same i (Nat.lt_of_lt_of_le inside (Nat.le_max_left _ _)), loaded.bytes i inside]
  zeros i after inside := by
    rw [same i (Nat.lt_of_lt_of_le inside (Nat.le_max_right _ _)), loaded.zeros i after inside]

theorem Placed.first_add (placed : header.Placed) :
    header.first + header.phOff % Disk.sectSize = header.phPaddr :=
  Nat.sub_add_cancel placed.room

/-- The sectors that are read hold all the bytes that were asked for. -/
theorem Placed.read_covers (placed : header.Placed) :
    header.phPaddr + header.phFilesz ≤ header.readEnd := by
  have start := placed.first_add
  have size : Disk.sectSize = 512 := rfl
  simp only [readEnd, sectorsFor, size] at start ⊢
  omega

theorem headerAt_congr {a b : Nat} (same : ∀ i < sizeofProg, other (b + i) = memory (a + i)) :
    headerAt other b = headerAt memory a := by
  have word (k : Nat) (inside : k + 4 ≤ sizeofProg) :
      other.wordAt (b + k) = memory.wordAt (a + k) := by
    refine Bytes.wordAt_congr fun i small => ?_
    rw [Nat.add_assoc, Nat.add_assoc]
    exact same (k + i) (by omega)
  simp only [headerAt, word 4 (by decide), word 12 (by decide), word 16 (by decide),
    word 20 (by decide)]

end ProgramHeader

open ProgramHeader

variable {header : ProgramHeader} {ph : Nat}

/-- One segment is loaded, and outside of its sectors nothing is written. -/
theorem loadSegment_done (found : headerAt memory ph = header) (placed : header.Placed)
    (offsetFits : header.phOff < 2 ^ 32)
    (apart : ph + sizeofProg ≤ header.first ∨ header.last ≤ ph) (enough : 2 ^ 24 ≤ fuel) :
    ∃ after, loadSegment fuel drives memory ph = some after ∧
      header.LoadedFrom (image drives) after ∧
      ∀ x, x < header.first ∨ header.last ≤ x → after x = memory x := by
  have start := placed.first_add
  have covers := placed.read_covers
  have readLast : header.readEnd ≤ header.last := Nat.le_max_left _ _
  have memLast : header.phPaddr + header.phMemsz ≤ header.last := Nat.le_max_right _ _
  have read := @readseg_done drives memory header.phPaddr header.phFilesz header.phOff fuel
    placed.room placed.inMemory offsetFits enough
  rw [← first] at read
  obtain ⟨middle, written⟩ : ∃ middle, middle = memory.overlay header.first
      (Disk.sectSize * sectorsFor (header.phOff % Disk.sectSize) header.phFilesz)
      ((image drives).drop (header.phOff - header.phOff % Disk.sectSize)) := ⟨_, rfl⟩
  rw [← written] at read
  have outside (x : Nat) (out : x < header.first ∨ header.readEnd ≤ x) : middle x = memory x := by
    rw [written]
    exact Bytes.overlay_of_outside out
  have bytes (i : Nat) (inside : i < header.phFilesz) :
      middle (header.phPaddr + i) = image drives (header.phOff + i) := by
    have place : header.phPaddr + i = header.first + (header.phOff % Disk.sectSize + i) := by omega
    rw [written, place, Bytes.overlay_of_inside (by rw [readEnd] at covers; omega), Bytes.drop]
    congr 1
    have := Nat.mod_le header.phOff Disk.sectSize
    omega
  -- the header is read again after the sectors were written
  have again : headerAt middle ph = header := by
    rw [← found]
    refine headerAt_congr fun i inside => outside _ ?_
    omega
  rw [loadSegment, found]
  simp only [read, Option.bind_eq_bind, Option.bind_some, again]
  by_cases more : header.phMemsz > header.phFilesz
  · rw [if_pos more, Nat.mod_eq_of_lt (by have := placed.inMemory; omega)]
    refine ⟨_, rfl, ⟨fun i inside => ?_, fun i behind inside => ?_⟩, fun x out => ?_⟩
    · rw [Bytes.overlay_of_outside (by omega)]
      exact bytes i inside
    · have place : header.phPaddr + i =
          header.phPaddr + header.phFilesz + (i - header.phFilesz) := by omega
      rw [place, Bytes.overlay_of_inside (by omega)]
      rfl
    · rw [Bytes.overlay_of_outside (by omega)]
      exact outside x (by omega)
  · rw [if_neg more]
    exact ⟨_, rfl, ⟨bytes, fun i behind inside => by omega⟩, fun x out => outside x (by omega)⟩

/-- The header of a segment in the file. -/
def segmentOf (file : Bytes) (k : Nat) : ProgramHeader :=
  headerAt file (ePhoff file 0 + sizeofProg * k)

/-- The boot block is loaded at `0x7C00`, below which its stack begins.  A page is more than
`bootmain` takes of it. -/
def bootStack : Nat := 0x6C00

def bootEnd : Nat := 0x7E00

/-- A file whose headers all lie in what is read first, and whose segments reach neither the loader
nor the place of the headers and do not, when they are loaded in their order, destroy what was loaded
before them. -/
structure Loadable (file : Bytes) : Prop where
  magic : eMagic file 0 = elfMagic
  headers : ePhoff file 0 + sizeofProg * ePhnum file 0 ≤ scratchSize
  placed : ∀ k < ePhnum file 0, (segmentOf file k).Placed
  apart : ∀ k < ePhnum file 0,
    (segmentOf file k).last ≤ scratch ∨ scratch + scratchSize ≤ (segmentOf file k).first
  loader : ∀ k < ePhnum file 0,
    (segmentOf file k).last ≤ bootStack ∨ bootEnd ≤ (segmentOf file k).first
  ordered : ∀ k < ePhnum file 0, ∀ j < k,
    (segmentOf file k).last ≤ (segmentOf file j).phPaddr ∨
      (segmentOf file j).phPaddr + (segmentOf file j).size ≤ (segmentOf file k).first

/-- The memory after `k` segments. -/
structure LoadedUpTo (file before : Bytes) (k : Nat) (memory : Bytes) : Prop where
  read : ∀ i < scratchSize, memory (scratch + i) = file i
  segments : ∀ j < k, (segmentOf file j).LoadedFrom file memory
  rest : ∀ x, x < scratch ∨ scratch + scratchSize ≤ x →
    (∀ j < k, x < (segmentOf file j).first ∨ (segmentOf file j).last ≤ x) → memory x = before x

variable {file before : Bytes} {k more rounds : Nat}

theorem LoadedUpTo.start : LoadedUpTo file before 0 (before.overlay scratch scratchSize file) where
  read _ inside := Bytes.overlay_of_inside inside
  segments _ none := absurd none (Nat.not_lt_zero _)
  rest _ outside _ := Bytes.overlay_of_outside outside

/-- The headers in memory are those of the file. -/
theorem LoadedUpTo.headers (loaded : LoadedUpTo file before k memory) {a : Nat}
    (inside : a + sizeofProg ≤ scratchSize) : headerAt memory (scratch + a) = headerAt file a := by
  refine headerAt_congr fun i small => ?_
  rw [Nat.add_assoc]
  exact loaded.read (a + i) (by omega)

/-- One round of the loop over the headers. -/
theorem LoadedUpTo.round (loaded : LoadedUpTo (image drives) before k memory)
    (loadable : Loadable (image drives)) (known : k < ePhnum (image drives) 0)
    (enough : 2 ^ 24 ≤ fuel) :
    ∃ after, loadSegment fuel drives memory
        (scratch + (ePhoff (image drives) 0 + sizeofProg * k)) = some after ∧
      LoadedUpTo (image drives) before (k + 1) after := by
  have headers := loadable.headers
  have size : sizeofProg = 32 := rfl
  have inside : ePhoff (image drives) 0 + sizeofProg * k + sizeofProg ≤ scratchSize := by
    rw [size] at headers ⊢
    omega
  have apart := loadable.apart k known
  obtain ⟨after, done, segment, outside⟩ := @loadSegment_done drives memory fuel
    (segmentOf (image drives) k) (scratch + (ePhoff (image drives) 0 + sizeofProg * k))
    (loaded.headers inside) (loadable.placed k known) Bytes.wordAt_lt (by omega) enough
  refine ⟨after, done, ⟨fun i small => ?_, fun j earlier => ?_, fun x out others => ?_⟩⟩
  · rw [outside _ (by omega)]
    exact loaded.read i small
  · cases Nat.lt_succ_iff_lt_or_eq.mp earlier with
    | inl before =>
        have ordered := loadable.ordered k known j before
        refine (loaded.segments j before).congr fun i small => outside _ ?_
        omega
    | inr same => exact same ▸ segment
  · rw [outside x (others k (Nat.lt_succ_self k))]
    exact loaded.rest x out fun j earlier => others j (Nat.lt_succ_of_lt earlier)

/-- The rounds that are left, by induction on their number. -/
theorem LoadedUpTo.run (loaded : LoadedUpTo (image drives) before k memory)
    (loadable : Loadable (image drives)) (left : k + more = ePhnum (image drives) 0)
    (enough : 2 ^ 24 ≤ fuel) (lasts : more < rounds) :
    ∃ after, loop (segmentRound fuel drives
        (scratch + (ePhoff (image drives) 0 + sizeofProg * ePhnum (image drives) 0))) rounds
        (scratch + (ePhoff (image drives) 0 + sizeofProg * k), memory) = some (some after) ∧
      LoadedUpTo (image drives) before (ePhnum (image drives) 0) after := by
  have size : sizeofProg = 32 := rfl
  induction more generalizing k memory rounds with
  | zero =>
      obtain ⟨rounds, rfl⟩ : ∃ less, rounds = less + 1 := ⟨rounds - 1, by omega⟩
      rw [Nat.add_zero] at left
      refine ⟨memory, loop_exit ?_, left ▸ loaded⟩
      rw [segmentRound, left, if_neg (Nat.lt_irrefl _)]
  | succ more ih =>
      obtain ⟨rounds, rfl⟩ : ∃ less, rounds = less + 1 := ⟨rounds - 1, by omega⟩
      have known : k < ePhnum (image drives) 0 := by omega
      obtain ⟨middle, done, next⟩ := loaded.round loadable known enough
      have round : segmentRound fuel drives
          (scratch + (ePhoff (image drives) 0 + sizeofProg * ePhnum (image drives) 0))
          (scratch + (ePhoff (image drives) 0 + sizeofProg * k), memory) =
            .inl (scratch + (ePhoff (image drives) 0 + sizeofProg * (k + 1)), middle) := by
        have headers := loadable.headers
        have small : scratch + scratchSize < 2 ^ 32 := by decide
        have again : scratch + (ePhoff (image drives) 0 + sizeofProg * k) <
            scratch + (ePhoff (image drives) 0 + sizeofProg * ePhnum (image drives) 0) := by
          rw [size]
          omega
        have step : (scratch + (ePhoff (image drives) 0 + sizeofProg * k) + sizeofProg) % 2 ^ 32 =
            scratch + (ePhoff (image drives) 0 + sizeofProg * (k + 1)) := by
          rw [size] at headers ⊢
          rw [Nat.mod_eq_of_lt (by omega)]
          omega
        rw [segmentRound, if_pos again, done, step]
      rw [loop_next round]
      exact ih next (by omega) (by omega)

/-- What `bootmain` has read when it looks at the file. -/
theorem bootmain_read (enough : 2 ^ 24 ≤ fuel) :
    readseg fuel drives memory scratch scratchSize 0 =
      some (memory.overlay scratch scratchSize (image drives)) := by
  have read := @readseg_done drives memory scratch scratchSize 0 fuel
    (by decide) (by decide) (by decide) enough
  have start : (image drives).drop 0 = image drives := by
    funext i
    rw [Bytes.drop, Nat.zero_add]
  exact start ▸ read

theorem scratch_word {a : Nat} (inside : a + 4 ≤ scratchSize)
    (loaded : ∀ i < scratchSize, memory (scratch + i) = file i) :
    memory.wordAt (scratch + a) = file.wordAt a := by
  refine Bytes.wordAt_congr fun i small => ?_
  rw [Nat.add_assoc]
  exact loaded (a + i) (by omega)

theorem scratch_half {a : Nat} (inside : a + 2 ≤ scratchSize)
    (loaded : ∀ i < scratchSize, memory (scratch + i) = file i) :
    memory.halfAt (scratch + a) = file.halfAt a := by
  refine Bytes.halfAt_congr fun i small => ?_
  rw [Nat.add_assoc]
  exact loaded (a + i) (by omega)

/-- What is not an ELF file is not run, and only the place for its beginning is written. -/
theorem bootmain_refuses (wrong : eMagic (image drives) 0 ≠ elfMagic) (enough : 2 ^ 24 ≤ fuel) :
    bootmain fuel drives memory =
      some (memory.overlay scratch scratchSize (image drives), none) := by
  have started : LoadedUpTo (image drives) memory 0
      (memory.overlay scratch scratchSize (image drives)) := .start
  have magic : eMagic (memory.overlay scratch scratchSize (image drives)) scratch =
      eMagic (image drives) 0 := scratch_word (a := 0) (by decide) started.read
  simp only [bootmain, bootmain_read enough, Option.bind_eq_bind, Option.bind_some, magic]
  rw [if_pos wrong]

/-- The loader enters the kernel with every segment in its place, and writes nothing but the
segments and the place for the beginning of the file, so that its own code and stack stay. -/
theorem bootmain_loads (loadable : Loadable (image drives)) (enough : 2 ^ 24 ≤ fuel) :
    ∃ after, bootmain fuel drives memory = some (after, some (eEntry (image drives) 0)) ∧
      (∀ k < ePhnum (image drives) 0,
        (segmentOf (image drives) k).LoadedFrom (image drives) after) ∧
      (∀ x, x < scratch ∨ scratch + scratchSize ≤ x →
        (∀ k < ePhnum (image drives) 0,
          x < (segmentOf (image drives) k).first ∨ (segmentOf (image drives) k).last ≤ x) →
        after x = memory x) ∧
      ∀ x, bootStack ≤ x → x < bootEnd → after x = memory x := by
  have started : LoadedUpTo (image drives) memory 0
      (memory.overlay scratch scratchSize (image drives)) := .start
  obtain ⟨begun, written⟩ : ∃ begun, begun = memory.overlay scratch scratchSize (image drives) :=
    ⟨_, rfl⟩
  rw [← written] at started
  have magic : eMagic begun scratch = elfMagic :=
    (scratch_word (a := 0) (by decide) started.read).trans loadable.magic
  have phoff : ePhoff begun scratch = ePhoff (image drives) 0 :=
    scratch_word (a := 28) (by decide) started.read
  have phnum : ePhnum begun scratch = ePhnum (image drives) 0 :=
    scratch_half (a := 44) (by decide) started.read
  have headers := loadable.headers
  have small : scratch + scratchSize < 2 ^ 32 := by decide
  have few : ePhnum (image drives) 0 < 2 ^ 16 := Bytes.halfAt_lt
  obtain ⟨after, ran, loaded⟩ := started.run loadable (Nat.zero_add _) enough
    (show ePhnum (image drives) 0 < fuel by omega)
  have entry : eEntry after scratch = eEntry (image drives) 0 :=
    scratch_word (a := 24) (by decide) loaded.read
  refine ⟨after, ?_, loaded.segments, fun x out others => loaded.rest x out others,
    fun x low high => ?_⟩
  case refine_2 =>
    have below : bootEnd ≤ scratch := by decide
    refine loaded.rest x (by omega) fun k known => ?_
    have clear := loadable.loader k known
    omega
  have first : (scratch + ePhoff (image drives) 0) % 2 ^ 32 =
      scratch + (ePhoff (image drives) 0 + sizeofProg * 0) := by
    rw [Nat.mul_zero, Nat.add_zero]
    exact Nat.mod_eq_of_lt (by omega)
  have stop : (scratch + (ePhoff (image drives) 0 + sizeofProg * 0) +
      sizeofProg * ePhnum (image drives) 0) % 2 ^ 32 =
        scratch + (ePhoff (image drives) 0 + sizeofProg * ePhnum (image drives) 0) := by
    rw [Nat.mul_zero, Nat.add_zero, Nat.mod_eq_of_lt (by omega), Nat.add_assoc]
  simp only [bootmain, bootmain_read enough, ← written, Option.bind_eq_bind, Option.bind_some,
    magic, ne_eq, not_true_eq_false, if_false, phoff, phnum, first, stop, ran, Option.join_some,
    entry]

/-- A kernel of two segments, the second with six bytes that are not in the file. -/
def twoSegments : Bytes :=
  [(0, elfMagic), (6, 0x100002), (7, 52), (11, 2), (14, 512), (16, 0x100000), (17, 4), (18, 4),
    (22, 518), (24, 0x101006), (25, 2), (26, 8), (128, 0xF4FA9090), (129, 0xBBAA0000)].foldl
      (fun file entry => file.setWord entry.1 entry.2) Bytes.zero

def bootDrives (drive sector : Nat) : Bytes :=
  if drive = 0 ∧ 0 < sector then twoSegments.drop (Disk.sectSize * (sector - 1)) else Bytes.zero

theorem bootDrives_loadable : Loadable (image bootDrives) where
  magic := by decide
  headers := by decide
  placed := by decide
  apart := by decide
  loader := by decide
  ordered := by decide

theorem bootmain_loads_twoSegments : ∃ after,
    bootmain (2 ^ 24) bootDrives Bytes.zero = some (after, some 0x100002) ∧
      after 0x101007 = 0xBB ∧ after 0x10100D = 0 ∧ after 0x102000 = 0 := by
  obtain ⟨after, done, segments, rest, -⟩ :=
    @bootmain_loads bootDrives Bytes.zero (2 ^ 24) bootDrives_loadable (Nat.le_refl _)
  have second := segments 1 (by decide)
  have entry : eEntry (image bootDrives) 0 = 0x100002 := by decide
  rw [entry] at done
  refine ⟨after, done, ?_, ?_, ?_⟩
  · exact (second.bytes 1 (by decide)).trans (by decide)
  · exact second.zeros 7 (by decide) (by decide)
  · exact rest _ (by decide) (by decide)

end WindOs.Boot
