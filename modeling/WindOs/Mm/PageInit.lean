import WindOs.Mm.PageAlloc

namespace WindOs.Mm

open Data

/-! # The page pool of page_init

`page_init` lays the array of `struct Page`s behind the kernel and the frames of the
pool behind the array.  The tables that it fills afterwards, to map the frames, change
neither.  Addresses are physical and wrap at 2^32.
-/

/-- An element of `struct e820map`. -/
structure E820Entry where
  baseLo : Nat
  baseHi : Nat
  lengthLo : Nat
  lengthHi : Nat
  type : Nat
deriving DecidableEq, Repr

namespace E820Entry

def base (entry : E820Entry) : Nat := entry.baseLo + 2 ^ 32 * entry.baseHi

def length (entry : E820Entry) : Nat := entry.lengthLo + 2 ^ 32 * entry.lengthHi

/-- The upper halves are not looked at. -/
def freeMemEnd (entry : E820Entry) : Nat := (entry.baseLo + entry.lengthLo) % 2 ^ 32

end E820Entry

/-- `sizeof(struct Page)` -/
def sizeofPage : Nat := 24

def roundUp (addr : Nat) : Nat := (addr - addr % pageSize + pageSize) % 2 ^ 32

def roundDown (addr : Nat) : Nat := addr - addr % pageSize

/-- `pages`, `pt_begin` and `free_pages`, with the local variables `pt_end` and
`free_page_num` of the last round. -/
structure PagePool where
  pages : Nat
  ptBegin : Nat
  ptEnd : Nat
  freePageNum : Nat
  area : FreeArea

namespace PagePool

/-- The globals before `page_init`. -/
def blank (nodes : Links PageNode) : PagePool where
  pages := 0
  ptBegin := 0
  ptEnd := 0
  freePageNum := 0
  area := { nodes, freePages := fun _ => 0, flags := fun _ => 0, freePageNum := 0 }

/-- The body of the loop for a region that is usable and not the first. -/
def layOut (pool : PagePool) (kernEnd : Nat) (entry : E820Entry) : PagePool :=
  let pages := roundUp ((kernEnd + 2 ^ 32 - vertualMem) % 2 ^ 32)
  let ptEnd := roundDown entry.freeMemEnd
  let num := (ptEnd + 2 ^ 32 - pages) % 2 ^ 32 / pageSize
  let num := if num > maxPageNum then maxPageNum else num
  { pages
    ptBegin := roundUp ((pages + num * sizeofPage) % 2 ^ 32)
    ptEnd
    freePageNum := num
    area := FreeArea.pageInit pool.area.nodes num }

/-- The loop of `page_init` from element `i` on. -/
def pageInitFrom (kernEnd : Nat) : Nat → PagePool → List E820Entry → PagePool
  | _, pool, [] => pool
  | i, pool, entry :: rest =>
      pageInitFrom kernEnd (i + 1)
        (if entry.type = 1 ∧ i ≠ 0 then pool.layOut kernEnd entry else pool) rest

def pageInit (kernEnd : Nat) (pool : PagePool) (memmap : List E820Entry) : PagePool :=
  pageInitFrom kernEnd 0 pool memmap

/-- `pg_to_addr_pa(pages + i)` -/
def pgToAddrPa (pool : PagePool) (i : Nat) : Nat := (i * pageSize + pool.ptBegin) % 2 ^ 32

/-- The frame at this address is usable memory. -/
def InUsable (memmap : List E820Entry) (pa : Nat) : Prop :=
  ∃ entry ∈ memmap, entry.type = 1 ∧ entry.base ≤ pa ∧ pa + pageSize ≤ entry.base + entry.length

/-- Every frame is usable memory between the array of the `struct Page`s and `pt_end`. -/
def Usable (pool : PagePool) (memmap : List E820Entry) : Prop :=
  ∀ i < pool.freePageNum, InUsable memmap (pool.pgToAddrPa i) ∧
    pool.pages + pool.freePageNum * sizeofPage ≤ pool.pgToAddrPa i ∧
    pool.pgToAddrPa i + pageSize ≤ pool.ptEnd

/-- The region that counts: every further one begins anew. -/
def lastUsable (memmap : List E820Entry) : Option E820Entry :=
  ((memmap.drop 1).filter fun entry => entry.type = 1).getLast?

/-- How many frames the array takes if it is full, and the part of a frame at its end. -/
def arrayFrames : Nat := 176

/-- Either there is no pool at all, or the memory behind the kernel is enough for the
full array and for as many frames as it has elements. -/
def Fits (kernEnd : Nat) (memmap : List E820Entry) : Prop :=
  ∀ entry, lastUsable memmap = some entry →
    let start := roundUp (kernEnd - vertualMem)
    roundDown entry.freeMemEnd = start ∨
      start + (arrayFrames + maxPageNum) * pageSize ≤ roundDown entry.freeMemEnd ∧
        ∀ i < maxPageNum, InUsable memmap (start + (arrayFrames + i) * pageSize)

variable {kernEnd i : Nat} {pool : PagePool} {memmap rest : List E820Entry} {entry : E820Entry}

/-- From the second element on the last usable region decides. -/
theorem pageInitFrom_cases :
    (rest.filter fun entry => entry.type = 1).getLast? = none ∧
        pageInitFrom kernEnd (i + 1) pool rest = pool ∨
      ∃ (entry : E820Entry) (before : PagePool), (rest.filter fun entry => entry.type = 1).getLast? = some entry ∧
        pageInitFrom kernEnd (i + 1) pool rest = before.layOut kernEnd entry := by
  induction rest generalizing i pool with
  | nil => exact .inl ⟨rfl, rfl⟩
  | cons first rest ih =>
      rw [pageInitFrom]
      by_cases usable : first.type = 1
      · rw [if_pos ⟨usable, by omega⟩, List.filter_cons_of_pos (by simpa using usable),
          List.getLast?_cons]
        right
        rcases @ih (i + 1) (pool.layOut kernEnd first) with
          ⟨none, same⟩ | ⟨entry, before, last, result⟩
        · exact ⟨first, pool, by rw [none]; rfl, same⟩
        · exact ⟨entry, before, by rw [last]; rfl, result⟩
      · rw [if_neg fun both => usable both.1, List.filter_cons_of_neg (by simpa using usable)]
        exact ih

theorem pageInit_cases :
    lastUsable memmap = none ∧ pageInit kernEnd pool memmap = pool ∨
      ∃ (entry : E820Entry) (before : PagePool), lastUsable memmap = some entry ∧
        pageInit kernEnd pool memmap = before.layOut kernEnd entry := by
  cases memmap with
  | nil => exact .inl ⟨rfl, rfl⟩
  | cons first rest =>
      have skipped : ¬ (first.type = 1 ∧ 0 ≠ 0) := fun both => both.2 rfl
      rw [pageInit, pageInitFrom, if_neg skipped, lastUsable, List.drop_succ_cons, List.drop_zero]
      exact pageInitFrom_cases

section Frames

variable {k e n r : Nat}

theorem roundDown_eq (addr : Nat) : roundDown addr = pageSize * (addr / pageSize) := by
  simp only [roundDown, pageSize]
  omega

theorem roundUp_eq {addr : Nat} (small : addr < 2 ^ 31) :
    roundUp addr = pageSize * (addr / pageSize + 1) := by
  simp only [roundUp, pageSize]
  omega

/-- How many frames there are from `pages` to `pt_end`, where the difference wraps. -/
theorem frames_between (first : k ≤ 2 ^ 18) (last : e < 2 ^ 20) :
    (pageSize * e + 2 ^ 32 - pageSize * k) % 2 ^ 32 / pageSize =
      if k ≤ e then e - k else e + 2 ^ 20 - k := by
  simp only [pageSize]
  split <;> omega

/-- The pool from frame `k` to frame `e`, of which the array takes `r` frames and a bit. -/
theorem pool_numbers (low : 1 ≤ k) (first : k ≤ 2 ^ 18) (last : e < 2 ^ 20)
    (num : n = min maxPageNum (if k ≤ e then e - k else e + 2 ^ 20 - k))
    (lower : pageSize * r ≤ n * sizeofPage) (upper : n * sizeofPage < pageSize * r + pageSize) :
    (n = 0 ↔ e = k) ∧ (k + (arrayFrames + maxPageNum) ≤ e → n = maxPageNum) ∧
      (n = maxPageNum → r + 1 = arrayFrames) ∧
      (n ≠ 0 → k + r + 1 + n ≤ e → k + (arrayFrames + maxPageNum) ≤ e) ∧ k + r + 1 + n < 2 ^ 20 := by
  simp only [pageSize, maxPageNum, arrayFrames, sizeofPage] at num lower upper ⊢
  split at num
  · refine ⟨by omega, by omega, by omega, by omega, by omega⟩
  · refine ⟨by omega, by omega, by omega, by omega, by omega⟩

/-- The frames at which `layOut` puts the array and the pool. -/
theorem layOut_frames (high : vertualMem ≤ kernEnd) (word : kernEnd < 2 ^ 32) :
    ∃ k e r, roundUp (kernEnd - vertualMem) = pageSize * k ∧
      (pool.layOut kernEnd entry).pages = pageSize * k ∧
      (pool.layOut kernEnd entry).ptEnd = roundDown entry.freeMemEnd ∧
      (pool.layOut kernEnd entry).ptEnd = pageSize * e ∧
      (pool.layOut kernEnd entry).ptBegin = pageSize * (k + r + 1) ∧
      1 ≤ k ∧ k ≤ 2 ^ 18 ∧ e < 2 ^ 20 ∧
      (pool.layOut kernEnd entry).freePageNum =
        min maxPageNum (if k ≤ e then e - k else e + 2 ^ 20 - k) ∧
      pageSize * r ≤ (pool.layOut kernEnd entry).freePageNum * sizeofPage ∧
      (pool.layOut kernEnd entry).freePageNum * sizeofPage < pageSize * r + pageSize := by
  have begins : (kernEnd + 2 ^ 32 - vertualMem) % 2 ^ 32 = kernEnd - vertualMem := by
    simp only [vertualMem] at high ⊢
    omega
  have start := @roundUp_eq (kernEnd - vertualMem) (by simp only [vertualMem]; omega)
  have ends := roundDown_eq entry.freeMemEnd
  have small : 1 ≤ (kernEnd - vertualMem) / pageSize + 1 ∧
      (kernEnd - vertualMem) / pageSize + 1 ≤ 2 ^ 18 := by
    simp only [vertualMem, pageSize]
    omega
  have last : entry.freeMemEnd / pageSize < 2 ^ 20 := by
    simp only [E820Entry.freeMemEnd, pageSize]
    omega
  generalize (kernEnd - vertualMem) / pageSize + 1 = k at start small
  generalize entry.freeMemEnd / pageSize = e at ends last
  have num : (pool.layOut kernEnd entry).freePageNum =
      min maxPageNum (if k ≤ e then e - k else e + 2 ^ 20 - k) := by
    simp only [layOut, begins, start, ends, frames_between small.2 last]
    generalize (if k ≤ e then e - k else e + 2 ^ 20 - k) = d
    split <;> omega
  have pages : (pool.layOut kernEnd entry).pages = pageSize * k := by
    simp only [layOut, begins, start]
  have array : (pool.layOut kernEnd entry).ptBegin = roundUp
      ((pageSize * k + (pool.layOut kernEnd entry).freePageNum * sizeofPage) % 2 ^ 32) := by
    simp only [layOut, begins, start]
  have few : (pool.layOut kernEnd entry).freePageNum ≤ maxPageNum := by
    rw [num]
    exact Nat.min_le_left _ _
  have ptEnd : (pool.layOut kernEnd entry).ptEnd = roundDown entry.freeMemEnd := rfl
  generalize (pool.layOut kernEnd entry).freePageNum = n at num array few ⊢
  refine ⟨k, e, n * sizeofPage / pageSize, start, pages, ptEnd, ptEnd.trans ends, ?_, small.1,
    small.2, last, num, Nat.mul_div_le _ _, ?_⟩
  · have bound : pageSize * k + n * sizeofPage < 2 ^ 31 := by
      simp only [maxPageNum] at few
      simp only [pageSize, sizeofPage]
      omega
    rw [array, Nat.mod_eq_of_lt (by omega), roundUp_eq bound,
      Nat.mul_add_div (show pageSize > 0 by decide)]
  · have split := Nat.div_add_mod (n * sizeofPage) pageSize
    have rest := Nat.mod_lt (n * sizeofPage) (show 0 < pageSize by decide)
    omega

/-- The pool lies in usable memory if it is empty, or if the last usable region leaves
room for the array of all the `struct Page`s besides the frames. -/
theorem pool_usable (high : vertualMem ≤ kernEnd) (word : kernEnd < 2 ^ 32)
    (nodes : Links PageNode) :
    (pageInit kernEnd (blank nodes) memmap).Usable memmap ↔ Fits kernEnd memmap := by
  rcases @pageInit_cases kernEnd (blank nodes) memmap with ⟨none, same⟩ | ⟨entry, before, last, result⟩
  · rw [same]
    refine iff_of_true (fun i small => absurd small (Nat.not_lt_zero i)) ?_
    intro entry found
    rw [none] at found
    cases found
  · obtain ⟨k, e, r, start, pages, ptEnd, ends, begins, low, first, below, num, lower, upper⟩ :=
      @layOut_frames kernEnd before entry high word
    rw [result]
    generalize before.layOut kernEnd entry = pool at *
    obtain ⟨empty, full, array, room, narrow⟩ := pool_numbers low first below num lower upper
    have address : ∀ i < pool.freePageNum, pool.pgToAddrPa i = pageSize * (k + r + 1 + i) := by
      intro i small
      rw [pgToAddrPa, begins, Nat.mul_comm i, ← Nat.mul_add, Nat.add_comm i]
      refine Nat.mod_eq_of_lt ?_
      simp only [pageSize]
      omega
    have above : pool.pages + pool.freePageNum * sizeofPage ≤ pageSize * (k + r + 1) := by
      rw [pages]
      simp only [pageSize] at upper ⊢
      omega
    have whole : Fits kernEnd memmap ↔ e = k ∨ k + (arrayFrames + maxPageNum) ≤ e ∧
        ∀ i < maxPageNum, InUsable memmap (pageSize * (k + arrayFrames + i)) := by
      simp only [Fits, last, Option.some.injEq, forall_eq', ← ptEnd, ends, start]
      have scaled : ∀ a b c, pageSize * a + (b + c) * pageSize = pageSize * (a + b + c) := by
        intro a b c
        simp only [pageSize]
        omega
      simp only [scaled, Nat.add_assoc]
      have positive : 0 < pageSize := by decide
      rw [Nat.mul_le_mul_left_iff positive, Nat.mul_right_inj positive.ne']
    rw [whole]
    by_cases zero : pool.freePageNum = 0
    · exact iff_of_true (fun i small => absurd small (by omega)) (.inl (empty.mp zero))
    · constructor
      · intro usable
        have lastFrame := (usable (pool.freePageNum - 1) (by omega)).2.2
        rw [address _ (by omega), ends] at lastFrame
        have enough := room zero (by simp only [pageSize] at lastFrame; omega)
        refine .inr ⟨enough, ?_⟩
        intro i small
        have count := full enough
        have frame := (usable i (by omega)).1
        rwa [address i (by omega), Nat.add_assoc k, array count] at frame
      · rintro (none | ⟨enough, usable⟩)
        · exact absurd (empty.mpr none) zero
        · have count := full enough
          intro i small
          rw [address i small, ends]
          refine ⟨?_, ?_, ?_⟩
          · rw [Nat.add_assoc k, array count]
            exact usable i (by omega)
          · simp only [pageSize] at above ⊢
            omega
          · have frames := array count
            simp only [pageSize]
            omega

end Frames

/-- A machine of 128 MB, as QEMU reports it, with a kernel of 200 KB. -/
def largeMap : List E820Entry :=
  [{ baseLo := 0, baseHi := 0, lengthLo := 0x9FC00, lengthHi := 0, type := 1 },
    { baseLo := 0x100000, baseHi := 0, lengthLo := 0x7EE0000, lengthHi := 0, type := 1 }]

theorem pool_usable_large :
    (pageInit 0xC0132000 (blank { next := id, prev := id }) largeMap).Usable largeMap := by
  refine (pool_usable (by decide) (by decide) _).mpr ?_
  intro entry found
  obtain rfl : _ = entry := Option.some.inj found
  have start : roundUp (0xC0132000 - vertualMem) = 0x133000 := by decide
  refine .inr ⟨by decide, ?_⟩
  intro i small
  refine ⟨{ baseLo := 0x100000, baseHi := 0, lengthLo := 0x7EE0000, lengthHi := 0, type := 1 },
    by decide, rfl, ?_, ?_⟩
  · rw [start]
    simp only [E820Entry.base]
    omega
  · simp only [maxPageNum] at small
    simp only [start, E820Entry.base, E820Entry.length, pageSize, arrayFrames]
    omega

/-- A machine of 64 MB: the array takes frames from the end of the pool. -/
def smallMap : List E820Entry :=
  [{ baseLo := 0, baseHi := 0, lengthLo := 0x9FC00, lengthHi := 0, type := 1 },
    { baseLo := 0x100000, baseHi := 0, lengthLo := 0x3EE0000, lengthHi := 0, type := 1 }]

theorem pool_beyond_memory :
    ¬ (pageInit 0xC0132000 (blank { next := id, prev := id }) smallMap).Usable smallMap := by
  intro usable
  have count : (pageInit 0xC0132000 (blank { next := id, prev := id }) smallMap).freePageNum = 16045 := by
    decide
  have outside := (usable 16044 (by rw [count]; decide)).2.2
  revert outside
  decide

end PagePool

end WindOs.Mm
