import WindOs.Data.Settle
import WindOs.Mm.CopyMm
import WindOs.Mm.Translation

namespace WindOs.Mm

open Data

/-! # What a fork should do to the parent

Only a page of a VMA that is present concerns the loops of `copy_mm`.  As long as it
meets none, it takes pages for the directory and for the chunks of `malloc`, copies the
directory and leaves everything else as it was.
-/

namespace Paging

open VmState

variable {pg cur after : Paging} {heap : Heap} {old child : PagedMm} {blocks : List (Nat × Nat)}
  {free fifo order : List Nat} {frame directory nullIndex fuel size la i p q v : Nat}

/-- A frame that the parent maps at a user address or in one of its VMAs. -/
def ParentFrame (pg : Paging) (old : PagedMm) (frame : Nat) : Prop :=
  ∃ la, (UserPage (la / pageSize) ∨ old.InVma la) ∧ la < 2 ^ 32 ∧
    pg.translate old.directory la = some frame

def OnFreeList (pg : Paging) (frame : Nat) : Prop :=
  ∃ p, frame = pg.base + p ∧ ∃ rounds, pg.area.nodes.next^[rounds] .head = .page p

/-- The parent is as it was, and its pages are copied. -/
structure Isolated (pg after : Paging) (old child : PagedMm) : Prop where
  translations : ∀ la < 2 ^ 32, after.translate old.directory la = pg.translate old.directory la
  contents : ∀ frame, pg.ParentFrame old frame → after.memory frame = pg.memory frame
  refs : ∀ frame, pg.ParentFrame old frame → after.ref frame = pg.ref frame
  notFreed : ∀ frame, pg.ParentFrame old frame → after.OnFreeList frame → pg.OnFreeList frame
  copied : ∀ la frame, old.InVma la → pg.translate old.directory la = some frame →
    ∃ copy, after.translate child.directory la = some copy ∧ ¬ pg.ParentFrame old copy ∧
      after.memory copy = pg.memory frame

/-- `copy_mm` comes to an end, and whenever it does it returns and the parent is isolated
from the child. -/
structure Isolates [Aliases] (nullIndex : Nat) (pg : Paging) (heap : Heap) (old : PagedMm) : Prop where
  ends : ∃ fuel, pg.copyMm nullIndex fuel heap old ≠ .error .unfinished
  returns : ∀ fuel, pg.copyMm nullIndex fuel heap old ≠ .error .unfinished →
    ∃ child after later, pg.copyMm nullIndex fuel heap old = .ok (child, after, later) ∧
      Isolated pg after old child

/-- The frames that the parent needs: its directory, its tables and its pages. -/
def Needed (pg : Paging) (old : PagedMm) (frame : Nat) : Prop :=
  frame = old.directory ∨ pg.Refers old.directory frame ∨ pg.ParentFrame old frame

/-- The lists are rings, the VMAs end below the last table, and what is free is not in use by
the parent. -/
structure Forkable (pg : Paging) (old : PagedMm) (blocks : List (Nat × Nat))
    (free fifo order : List Nat) : Prop where
  rings : PageState.Rings pg.count { area := pg.area, blocks } free fifo
  ring : old.list.nodes.IsRing .head (order.map .vma)
  sorted : order.Pairwise fun first second =>
    (old.list.vmas first).vmmStart ≤ (old.list.vmas second).vmmStart
  fits : ∀ v ∈ order, (old.list.vmas v).vmmEnd ≤ 0xFFC00000
  room : pg.base + pg.count ≤ 2 ^ 18
  pointer : old.pde < 2 ^ 32
  unused : ∀ p ∈ free, ¬ pg.Needed old (pg.base + p)

/-- `alloc_page(1)` finds a page. -/
def Stocked (pg : Paging) : Prop :=
  1 ≤ pg.area.freePageNum ∧ pg.Available

/-- `alloc_page(1)` finds a page, and the page that it evicts is none that the parent needs,
nor is the table from which it is taken. -/
structure Spares (pg : Paging) (old : PagedMm) : Prop where
  stocked : pg.Stocked
  victim : ∀ q, pg.isVmmInited → pg.area.nodes.next .vmFifo = .page q →
    ¬ pg.Needed old (pg.base + q) ∧
      ∃ frame i, pg.lookupPte pg.pde (pg.va (pg.base + q)) = some (frame, i) ∧ ¬ pg.Needed old frame

/-- `malloc` finds a chunk, or the page that it takes is spared. -/
def Grants (pg : Paging) (heap : Heap) (old : PagedMm) (size : Nat) : Prop :=
  ∃ fuel found, heap.search fuel ((chunkSize + size) % 2 ^ 32) = some found ∧
    (found = none → pg.Spares old)

/-- The parent finds its directory, and the page that comes first on the free list, at their
physical addresses. -/
structure FindsDirectories (pg : Paging) (old : PagedMm) : Prop where
  parent : pg.translate old.directory old.pde = some old.directory
  child : ∀ p, pg.area.nodes.next .head = .page p →
    pg.translate old.directory (pgToAddrPa (pg.base + p)) = some (pg.base + p)

/-- The state in which the loops of `copy_mm` begin. -/
def withCopy (pg : Paging) (directory oldPde : Nat) : Paging :=
  { pg with memory := Function.update pg.memory directory (pg.memory oldPde) }

section Supply

variable [Aliases]

/-- So many VMAs in turn get what they need of `malloc`. -/
def GrantsVmas (nullIndex : Nat) (pg : Paging) (heap : Heap) (old : PagedMm) : Nat → Prop
  | 0 => True
  | count + 1 => pg.Grants heap old sizeofVma ∧
      ∀ fuel after later addr, pg.malloc nullIndex fuel heap sizeofVma = .ok (after, later, addr) →
        after.GrantsVmas nullIndex later old count

/-- The calls of `malloc` and `alloc_page` in `copy_mm` get what they ask for and take nothing
that the parent needs, and both directories are found. -/
def Supplied (nullIndex : Nat) (pg : Paging) (heap : Heap) (old : PagedMm) (count : Nat) : Prop :=
  pg.Grants heap old sizeofMm ∧
    ∀ fuel middle later addr, pg.malloc nullIndex fuel heap sizeofMm = .ok (middle, later, addr) →
      middle.Spares old ∧ middle.FindsDirectories old ∧
        ∀ page after, middle.allocPage 1 = .ok (some page, after) →
          (after.withCopy page old.directory).GrantsVmas nullIndex later old count

end Supply

def NonePresent (pg : Paging) (old : PagedMm) : Prop :=
  ∀ la, old.InVma la → pg.translate old.directory la = none

/-- Nothing is evicted, the directory is none of its own tables, and a present page of a VMA
is one of the pool, in another table than its kernel address. -/
structure Ordinary (pg : Paging) (old : PagedMm) : Prop where
  quiet : pg.isVmmInited = false ∨ pg.area.nodes.next .vmFifo = .vmFifo
  apart : ¬ pg.Refers old.directory old.directory
  placed : ∀ la frame, old.InVma la → pg.translate old.directory la = some frame →
    (∃ r < pg.count, frame = pg.base + r) ∧ pgToAddrLa frame / 2 ^ 22 ≠ la / 2 ^ 22
  physical : ∀ frame, pg.translate old.directory old.pde = some frame → frame = old.directory
  free : ∀ page frame, pg.OnFreeList page →
    pg.translate old.directory (pgToAddrPa page) = some frame → frame = page

theorem translate_congr (directories : after.memory directory = pg.memory directory)
    (tables : ∀ table, pg.Refers directory table → after.memory table = pg.memory table)
    (inside : la < 2 ^ 32) : after.translate directory la = pg.translate directory la := by
  have index : la / 2 ^ 22 < 1024 := by omega
  have entry : after.entry directory (la / 2 ^ 22) = pg.entry directory (la / 2 ^ 22) := by
    rw [Paging.entry, directories, Paging.entry]
  unfold translate lookupPte
  rw [entry]
  by_cases present : Entry.Present (pg.entry directory (la / 2 ^ 22))
  · have table : ∀ i, after.entry (Entry.addr (pg.entry directory (la / 2 ^ 22))) i =
        pg.entry (Entry.addr (pg.entry directory (la / 2 ^ 22))) i := by
      intro i
      rw [Paging.entry, tables _ ⟨la / 2 ^ 22, index, present, rfl⟩]
      rfl
    simp only [if_pos present, Option.bind_some, table]
  · simp only [if_neg present, Option.bind_none]

theorem translate_same {other : Nat} (same : pg.memory directory = pg.memory other) :
    pg.translate directory la = pg.translate other la := by
  have rows : ∀ i, pg.entry directory i = pg.entry other i := by
    intro i
    rw [Paging.entry, same, Paging.entry]
  simp only [translate, lookupPte, rows]

/-- Nothing that the parent needs has changed, and nothing of it is on the free list. -/
structure Untouched (pg after : Paging) (old : PagedMm) : Prop where
  ref : after.ref = pg.ref
  base : after.base = pg.base
  count : after.count = pg.count
  memory : ∀ frame, pg.Needed old frame → after.memory frame = pg.memory frame
  lists : ∃ blocks free fifo, PageState.Rings after.count { area := after.area, blocks } free fifo ∧
    ∀ r ∈ free, ¬ pg.Needed old (pg.base + r)

namespace Untouched

theorem translate (untouched : Untouched pg after old) (inside : la < 2 ^ 32) :
    after.translate old.directory la = pg.translate old.directory la :=
  translate_congr (untouched.memory _ (.inl rfl))
    (fun table refers => untouched.memory table (.inr (.inl refers))) inside

/-- The parent still needs the same frames. -/
theorem needed_iff (untouched : Untouched pg after old) :
    after.Needed old frame ↔ pg.Needed old frame := by
  have directory := untouched.memory _ (.inl rfl)
  have refers : after.Refers old.directory frame ↔ pg.Refers old.directory frame := by
    simp only [Refers, entry, directory]
  have frames : after.ParentFrame old frame ↔ pg.ParentFrame old frame := by
    constructor
    · rintro ⟨la, place, inside, mapped⟩
      exact ⟨la, place, inside, (untouched.translate inside).symm.trans mapped⟩
    · rintro ⟨la, place, inside, mapped⟩
      exact ⟨la, place, inside, (untouched.translate inside).trans mapped⟩
  simp only [Needed, refers, frames]

/-- The copy of the directory touches nothing of the parent. -/
theorem withCopy (untouched : Untouched pg after old) (unused : ¬ pg.Needed old frame) :
    Untouched pg (after.withCopy frame old.directory) old where
  ref := untouched.ref
  base := untouched.base
  count := untouched.count
  memory g needed := by
    have different : g ≠ frame := fun same => unused (same ▸ needed)
    exact (Function.update_of_ne different _ _).trans (untouched.memory g needed)
  lists := untouched.lists

/-- If no page of a VMA is present, a parent of which nothing was touched is isolated. -/
theorem isolated (untouched : Untouched pg after old) (absent : pg.NonePresent old) :
    Isolated pg after old child where
  translations _ inside := untouched.translate inside
  contents frame parent := untouched.memory frame (.inr (.inr parent))
  refs frame _ := by rw [untouched.ref]
  notFreed frame parent := by
    rintro ⟨r, place, reached⟩
    obtain ⟨blocks, free, fifo, rings, apart⟩ := untouched.lists
    have member : r ∈ free := by simpa using rings.ring.reached_iff.mp reached
    rw [untouched.base] at place
    exact absurd (.inr (.inr (place ▸ parent))) (apart r member)
  copied la frame inVma present := by
    rw [absent la inVma] at present
    cases present

end Untouched

/-- A chunk that fits is all that `malloc` needs. -/
theorem Grants.of_chunk {chunk : Nat}
    (searched : heap.search fuel ((chunkSize + size) % 2 ^ 32) = some (some chunk)) :
    pg.Grants heap old size := by
  refine ⟨fuel, _, searched, ?_⟩
  intro none
  cases none

theorem Forkable.untouched (forkable : pg.Forkable old blocks free fifo order) :
    Untouched pg pg old :=
  ⟨rfl, rfl, rfl, fun _ _ => rfl, blocks, free, fifo, forkable.rings, forkable.unused⟩

/-- The allocator serves one page exactly if it finds one. -/
theorem alloc_first (rings : PageState.Rings pg.count { area := pg.area, blocks } free fifo) :
    (¬ pg.Stocked ∧ pg.area.allocPage (pg.count + 1) 1 = some (none, pg.area)) ∨
      ∃ p rest area, pg.Stocked ∧ free = p :: rest ∧ pg.area.nodes.next .head = .page p ∧
        pg.area.allocPage (pg.count + 1) 1 = some (some p, area) ∧
        PageState.Rings pg.count { area, blocks := (p, 1) :: blocks } rest fifo := by
  have search := FreeArea.search_first (n := 1) rings.ring (Nat.lt_succ_of_le rings.length_le)
  rcases rings.alloc Nat.one_pos PageState.consecutive_one with refused |
      ⟨p, rest, area, whole, served, kept⟩
  · refine .inl ⟨?_, refused⟩
    rintro ⟨some, p, first, large⟩
    have few : ¬ 1 > pg.area.freePageNum := Nat.not_lt.mpr some
    cases free with
    | nil =>
        rw [rings.ring.next_head] at first
        cases first
    | cons q rest =>
        obtain rfl : q = p := PageNode.page.inj (rings.ring.next_head.symm.trans first)
        change pg.area.allocPage (pg.count + 1) 1 = _ at refused
        rw [FreeArea.allocPage, if_neg few, search] at refused
        simp only [if_pos large, Option.map_some] at refused
        cases refused
  · have whole : free = p :: rest := whole
    subst whole
    have first : pg.area.nodes.next .head = .page p := rings.ring.next_head
    refine .inr ⟨p, rest, area, ?_, rfl, first, served, kept⟩
    change pg.area.allocPage (pg.count + 1) 1 = _ at served
    rw [FreeArea.allocPage] at served
    by_cases many : 1 > pg.area.freePageNum
    · rw [if_pos many] at served
      cases served
    · rw [if_neg many, search] at served
      by_cases large : pg.area.freePages p ≥ 1
      · exact ⟨Nat.not_lt.mp many, p, first, large⟩
      · simp only [if_neg large, Option.map_some] at served
        cases served

theorem nextPage_eq (below : la < 0xFFC00000) : nextPage la = la + pageSize := by
  simp only [nextPage, pageSize]
  omega

theorem nextTable_eq (below : la < 0xFFC00000) : nextTable la = la + 1024 * pageSize := by
  simp only [nextTable, pageSize]
  omega

section Supply

variable [Aliases]

/-- `alloc_page(1)` takes the first page, and evicts nothing that the parent needs. -/
theorem Untouched.alloc (untouched : Untouched pg cur old) (spares : cur.Spares old) :
    ∃ p after, p < pg.count ∧ ¬ pg.Needed old (pg.base + p) ∧ cur.area.nodes.next .head = .page p ∧
      cur.allocPage 1 = .ok (some (pg.base + p), after) ∧ Untouched pg after old := by
  obtain ⟨blocks, free, fifo, rings, apart⟩ := untouched.lists
  rcases alloc_first rings with ⟨empty, -⟩ | ⟨p, rest, area, -, rfl, first, served, kept⟩
  · exact absurd spares.stocked empty
  have below : p < pg.count := by
    have listed := rings.listed p List.mem_cons_self
    rwa [untouched.count] at listed
  have unused := apart p List.mem_cons_self
  let taken := { cur with area }
  have plain : Untouched pg taken old :=
    ⟨untouched.ref, untouched.base, untouched.count, untouched.memory, _, rest, fifo, kept,
      fun r member => apart r (List.mem_cons_of_mem _ member)⟩
  have name : cur.base + p = pg.base + p := by rw [untouched.base]
  have called := @allocPage_served _ cur 1 p area served
  by_cases inited : cur.isVmmInited = true
  · rw [if_pos ⟨inited, rfl⟩] at called
    cases fifo with
    | nil =>
        have empty : taken.area.nodes.next .vmFifo = .vmFifo := kept.queue.next_head
        rw [swapOut_empty empty] at called
        exact ⟨p, taken, below, unused, first, name ▸ called, plain⟩
    | cons q queue =>
        have begins : taken.area.nodes.next .vmFifo = .page q := kept.queue.next_head
        obtain ⟨spared, frame, i, slot, elsewhere⟩ := spares.victim q inited rings.queue.next_head
        rw [untouched.needed_iff] at spared elsewhere
        rw [untouched.base] at spared
        obtain ⟨last, listed, evicted, given, members, -⟩ :=
          @evict_slot taken _ frame i _ PageState.ringKeeper q rest [] queue kept slot
        rw [swapOut_first begins evicted] at called
        change _ = Except.ok (some (cur.base + p), _) at called
        rw [name] at called
        refine ⟨p, _, below, unused, first, called, untouched.ref, untouched.base, untouched.count, ?_,
          _, listed, queue, given, ?_⟩
        · intro g needed
          have different : g ≠ frame := fun same => elsewhere (same ▸ needed)
          exact (memory_setEntry_of_ne different).trans (untouched.memory g needed)
        · intro r inside
          cases ((members r).mp inside).2 with
          | inl before => exact apart r (List.mem_cons_of_mem _ before)
          | inr here => exact here ▸ spared
  · rw [if_neg (fun both => inited both.1)] at called
    exact ⟨p, taken, below, unused, first, name ▸ called, plain⟩

/-- The search for a chunk alone decides how much fuel `malloc` needs. -/
theorem malloc_settles {found : Option Nat} {result : Paging × Heap × Nat}
    (searched : heap.search fuel ((chunkSize + size) % 2 ^ 32) = some found)
    (done : cur.malloc nullIndex fuel heap size = .ok result) :
    Settles .unfinished (fun fuel => cur.malloc nullIndex fuel heap size) result := by
  have same : ∀ {more : Nat} {again : Option Nat},
      heap.search more ((chunkSize + size) % 2 ^ 32) = some again →
        cur.malloc nullIndex more heap size = .ok result := by
    intro more again searchedAgain
    rw [← done]
    simp only [malloc, searched, searchedAgain, loop_unique searchedAgain searched]
  constructor
  · intro more
    cases searchedAgain : heap.search more ((chunkSize + size) % 2 ^ 32) with
    | none => exact .inl (by simp only [malloc, searchedAgain])
    | some again => exact .inr (same searchedAgain)
  · refine ⟨fuel, ?_⟩
    intro more above
    obtain ⟨extra, rfl⟩ := Nat.exists_eq_add_of_le above
    exact same (loop_add searched extra)

theorem Untouched.malloc (untouched : Untouched pg cur old) (grants : cur.Grants heap old size)
    (one : Heap.needPageNum ((chunkSize + size) % 2 ^ 32) = 1) :
    ∃ middle later addr, Untouched pg middle old ∧
      Settles .unfinished (fun fuel => cur.malloc nullIndex fuel heap size) (middle, later, addr) := by
  obtain ⟨fuel, found, searched, spared⟩ := grants
  cases found with
  | some chunk =>
      refine ⟨cur, heap.split chunk ((chunkSize + size) % 2 ^ 32), (chunk + chunkSize) % 2 ^ 32,
        untouched, malloc_settles searched ?_⟩
      simp only [Paging.malloc, searched]
  | none =>
      obtain ⟨p, middle, -, -, -, allocated, kept⟩ := untouched.alloc (spared rfl)
      refine ⟨middle, heap.extend size ((chunkSize + size) % 2 ^ 32) (pgToAddrLa (pg.base + p)),
        (pgToAddrLa (pg.base + p) + chunkSize) % 2 ^ 32, kept, malloc_settles searched ?_⟩
      simp only [Paging.malloc, searched, one, allocated]
      rfl

theorem copyPageRound_absent {pde oldPde start vmmEnd : Nat} (more : start < vmmEnd)
    (fits : vmmEnd ≤ 0xFFC00000) (absent : pg.translate oldPde start = none) :
    ∃ later, copyPageRound pde oldPde vmmEnd (start, pg) = .inl (later, pg) ∧ start < later := by
  have below : start < 0xFFC00000 := Nat.lt_of_lt_of_le more fits
  have page := nextPage_eq below
  have table := nextTable_eq below
  simp only [pageSize] at page table
  cases lookup : pg.lookupPte oldPde start with
  | none =>
      refine ⟨nextTable start, ?_, by omega⟩
      simp only [copyPageRound, if_pos more, lookup]
  | some oldPte =>
      obtain ⟨frame, i⟩ := oldPte
      have notPresent : ¬ Entry.Present (pg.entry frame i) := by
        intro present
        simp only [translate, lookup, Option.bind_some, if_pos present] at absent
        cases absent
      refine ⟨nextPage start, ?_, by omega⟩
      simp only [copyPageRound, if_pos more, lookup, if_neg notPresent]

/-- The loop over a VMA without a present page changes nothing, and ends when its fuel
lasts for every byte. -/
theorem copyPages_absent {pde oldPde start vmmEnd : Nat} (fits : vmmEnd ≤ 0xFFC00000)
    (absent : ∀ la, start ≤ la → la < vmmEnd → pg.translate oldPde la = none) :
    pg.copyPages fuel pde oldPde start vmmEnd = .ok pg ∨
      pg.copyPages fuel pde oldPde start vmmEnd = .error .unfinished ∧ fuel ≤ vmmEnd - start := by
  unfold copyPages
  induction fuel generalizing start with
  | zero => exact .inr ⟨rfl, Nat.zero_le _⟩
  | succ fuel ih =>
      by_cases more : start < vmmEnd
      · obtain ⟨later, round, further⟩ :=
          @copyPageRound_absent pg _ pde oldPde start vmmEnd more fits (absent start (Nat.le_refl _) more)
        rw [loop_next round]
        rcases ih (fun la above => absent la (Nat.le_trans (Nat.le_of_lt further) above)) with
          done | ⟨cut, short⟩
        · exact .inl done
        · exact .inr ⟨cut, by omega⟩
      · have ended : copyPageRound pde oldPde vmmEnd (start, pg) = .inr (.ok pg) := by
          simp only [copyPageRound, if_neg more]
        rw [loop_exit ended]
        exact .inl rfl

theorem copyPages_settles {pde oldPde start vmmEnd : Nat} (fits : vmmEnd ≤ 0xFFC00000)
    (absent : ∀ la, start ≤ la → la < vmmEnd → pg.translate oldPde la = none) :
    Settles .unfinished (fun fuel => pg.copyPages fuel pde oldPde start vmmEnd) pg := by
  have either := fun fuel => @copyPages_absent pg fuel _ pde oldPde start vmmEnd fits absent
  constructor
  · intro fuel
    rcases either fuel with done | ⟨cut, -⟩
    · exact .inr done
    · exact .inl cut
  · refine ⟨vmmEnd + 1, ?_⟩
    intro fuel above
    rcases either fuel with done | ⟨-, short⟩
    · exact done
    · omega

end Supply

end Paging

namespace VmaList

variable {old list : VmaList} {v : Nat} {rest : List Nat}

/-- The list of the child: empty, or with the first VMA alone, behind which no other is
linked. -/
def Growing (list old : VmaList) (rest : List Nat) : Prop :=
  list.nodes.IsRing .head ([].map .vma) ∨
    ∃ first < list.allocated, list.nodes.IsRing .head ([first].map .vma) ∧
      ∀ v ∈ rest, (list.vmas first).vmmStart ≤ (old.vmas v).vmmStart

theorem Growing.createVma (growing : Growing list old (v :: rest))
    (lowest : ∀ w ∈ rest, (old.vmas v).vmmStart ≤ (old.vmas w).vmmStart) :
    ∃ order, list.nodes.IsRing .head (order.map .vma) ∧
      Growing ((list.mallocVma (old.vmas v)).place list.allocated (list.found (old.vmas v) order))
        old rest := by
  rcases growing with ring | ⟨first, earlier, ring, low⟩
  · refine ⟨[], ring, .inr ⟨list.allocated, Nat.lt_succ_self _, ?_, ?_⟩⟩
    · exact listInsertAfter_head_ring ring (by simp)
    · intro w member
      have fields : (((list.mallocVma (old.vmas v)).place list.allocated
          (list.found (old.vmas v) [])).vmas list.allocated) = old.vmas v :=
        Function.update_self _ _ _
      rw [fields]
      exact lowest w member
  · have different : first ≠ list.allocated := Nat.ne_of_lt earlier
    have start : ((list.mallocVma (old.vmas v)).vmas first) = list.vmas first :=
      Function.update_of_ne different _ _
    have behind : list.found (old.vmas v) [first] = (.vma first, false) := by
      have notAbove : ¬ (list.vmas first).vmmStart > (old.vmas v).vmmStart :=
        Nat.not_lt.mpr (low v List.mem_cons_self)
      simp only [found, scan, List.map_cons, List.map_nil, visitStart, start, if_neg notAbove]
    refine ⟨[first], ring, ?_⟩
    rw [behind]
    refine .inr ⟨first, Nat.lt_succ_of_lt earlier, ring, ?_⟩
    intro w member
    have same : (((list.mallocVma (old.vmas v)).place list.allocated (.vma first, false)).vmas first) =
        list.vmas first := start
    rw [same]
    exact low w (List.mem_cons_of_mem _ member)

end VmaList

namespace Paging

theorem pgToAddrPa_lt {page : Nat} : pgToAddrPa page < 2 ^ 32 := Nat.mod_lt _ (by decide)

theorem pgToAddrPa_frame {page : Nat} (narrow : page < 2 ^ 20) : pgToAddrPa page / pageSize = page := by
  simp only [pgToAddrPa, pageSize]
  omega

section Supply

variable [Aliases] {pg cur middle : Paging} {heap later : Heap} {old : PagedMm} {list : VmaList}
  {fields : VmaStruct} {nullIndex addr : Nat} {blocks : List (Nat × Nat)}
  {free fifo order : List Nat}

theorem createVma_settles (ring : list.nodes.IsRing .head (order.map .vma))
    (settles : Settles .unfinished (fun fuel => cur.malloc nullIndex fuel heap sizeofVma)
      (middle, later, addr)) :
    Settles .unfinished (fun fuel => cur.createVma nullIndex fuel heap list fields)
      ((list.mallocVma fields).place list.allocated (list.found fields order), middle, later) := by
  refine settles.bind ?_
  constructor
  · intro fuel
    cases called : list.createVma fuel fields with
    | none => exact .inl rfl
    | some result =>
        obtain rfl := VmaList.createVma_unique ring called
        exact .inr rfl
  · refine ⟨order.length + 1, ?_⟩
    intro fuel above
    simp only [VmaList.createVma_eq ring above]

/-- The loop over the VMAs takes what `malloc` takes, and does nothing else to the parent. -/
theorem Untouched.copyVmas {before rest : List Nat} (untouched : Untouched pg cur old) (pde : Nat)
    (absent : pg.NonePresent old) (ring : old.list.nodes.IsRing .head ((before ++ rest).map .vma))
    (sorted : rest.Pairwise fun first second =>
      (old.list.vmas first).vmmStart ≤ (old.list.vmas second).vmmStart)
    (fits : ∀ v ∈ rest, (old.list.vmas v).vmmEnd ≤ 0xFFC00000) (growing : list.Growing old.list rest)
    (grants : cur.GrantsVmas nullIndex heap old rest.length) :
    ∃ last after later, Untouched pg after old ∧
      Settles .unfinished (fun fuel : Nat × Nat =>
        (loop (copyVmaRound nullIndex fuel.1 old.list pde old.directory) fuel.2
          ((rest.map .vma).headD .head, list, cur, heap)).getD (.error .unfinished))
        (last, after, later) := by
  induction rest generalizing before list cur heap with
  | nil =>
      exact ⟨list, cur, heap, untouched,
        .exit (copyVmaRound nullIndex · old.list pde old.directory) fun _ => rfl⟩
  | cons v rest ih =>
      obtain ⟨lowest, others⟩ := List.pairwise_cons.mp sorted
      obtain ⟨granted, grantedLater⟩ := grants
      obtain ⟨middle, later, addr, kept, served⟩ := untouched.malloc granted (by decide)
      obtain ⟨made, here, grown⟩ := growing.createVma lowest
      have nothing : ∀ la, (old.list.vmas v).vmmStart ≤ la → la < (old.list.vmas v).vmmEnd →
          middle.translate old.directory la = none := by
        intro la above under
        have below := fits v List.mem_cons_self
        rw [kept.translate (by omega)]
        refine absent la ⟨v, ring.reached_iff.mpr ?_, above, under⟩
        simp
      have copied := @copyPages_settles middle _ pde _ _ _ (fits v List.mem_cons_self) nothing
      let grownList := (list.mallocVma (old.list.vmas v)).place list.allocated
        (list.found (old.list.vmas v) made)
      have returned : Settles .unfinished (fun fuel =>
          middle.copyPages fuel pde old.directory (old.list.vmas v).vmmStart (old.list.vmas v).vmmEnd >>=
            fun pg => .ok (grownList, pg, later)) (grownList, middle, later) := copied.bind .returns
      have round : Settles .unfinished
          (fun fuel => cur.copyVma nullIndex fuel heap list pde old.directory (old.list.vmas v))
          (grownList, middle, later) := (createVma_settles here served).bind returned
      have next : old.list.nodes.next (.vma v) = (rest.map VmaNode.vma).headD .head := by
        rw [List.map_append, List.map_cons] at ring
        exact ring.next_member
      obtain ⟨enough, ended⟩ := served.ends
      have whole : old.list.nodes.IsRing .head (((before ++ [v]) ++ rest).map .vma) := by
        simpa using ring
      obtain ⟨last, after, final, untouchedLast, settles⟩ := ih kept whole others
        (fun w member => fits w (List.mem_cons_of_mem _ member)) grown
        (grantedLater enough middle later addr (ended enough le_rfl))
      refine ⟨last, after, final, untouchedLast,
        .round (copyVmaRound nullIndex · old.list pde old.directory) (fun _ => rfl) round ?_⟩
      rw [next]
      exact settles

/-- A parent with no present page in its VMAs is isolated, if the allocators serve `copy_mm`
with what the parent does not need. -/
theorem Forkable.isolates (forkable : pg.Forkable old blocks free fifo order)
    (supplied : pg.Supplied nullIndex heap old order.length) (absent : pg.NonePresent old) :
    pg.Isolates nullIndex heap old := by
  obtain ⟨granted, supplied⟩ := supplied
  obtain ⟨middle, later, addr, kept, served⟩ := forkable.untouched.malloc granted (by decide)
  obtain ⟨enough, ended⟩ := served.ends
  obtain ⟨spares, finds, grants⟩ := supplied enough middle later addr (ended enough le_rfl)
  obtain ⟨p, taken, below, unused, first, allocated, left⟩ := kept.alloc spares
  have room := forkable.room
  have name : middle.base + p = pg.base + p := by rw [kept.base]
  generalize here : pg.base + p = page at *
  have copied : taken.copyPage old.directory (pgToAddrPa page) old.pde =
      .ok (taken.withCopy page old.directory) := by
    have source := (left.translate forkable.pointer).trans
      ((kept.translate forkable.pointer).symm.trans finds.parent)
    have target := (left.translate pgToAddrPa_lt).trans
      ((kept.translate pgToAddrPa_lt).symm.trans (name ▸ finds.child p first))
    simp only [copyPage, source, target]
    rfl
  have begun := left.withCopy unused
  have empty : VmaList.Growing { old.list with nodes := listInit old.list.nodes .head } old.list order :=
    .inl listInit_ring
  obtain ⟨last, after, final, untouched, loops⟩ := @Untouched.copyVmas _ _ _ _ _ _ _ [] _ begun
    page absent forkable.ring forkable.sorted forkable.fits empty
    (grants _ _ (name ▸ allocated))
  have settles : Settles .unfinished (fun fuel => pg.copyMm nullIndex fuel heap old)
      ({ list := last, pde := pgToAddrPa page }, after, final) := by
    refine served.bind ?_
    rw [← forkable.ring.next_head] at loops
    have returned : Settles .unfinished (fun fuel =>
        (loop (copyVmaRound nullIndex fuel old.list page old.directory) fuel
          (old.list.nodes.next .head, { old.list with nodes := listInit old.list.nodes .head },
            taken.withCopy page old.directory, later)).getD (.error .unfinished) >>=
          fun result => .ok (PagedMm.mk result.1 (pgToAddrPa page), result.2))
        (⟨last, pgToAddrPa page⟩, after, final) :=
      loops.diagonal.bind .returns
    have place : PagedMm.directory { old with
        list := { old.list with nodes := listInit old.list.nodes .head }
        pde := pgToAddrPa page } = page := pgToAddrPa_frame (by omega)
    show Settles _ (fun _ => middle.allocPage 1 >>= _) _
    simp only [allocated]
    show Settles _ (fun _ => taken.copyPage old.directory (pgToAddrPa page) old.pde >>= _) _
    simp only [copied]
    show Settles _ (fun fuel =>
      (loop (copyVmaRound nullIndex fuel old.list (PagedMm.directory _) old.directory) fuel _).getD _ >>=
        _) _
    simp only [place]
    exact returned
  constructor
  · obtain ⟨fuel, ended⟩ := settles.ends
    refine ⟨fuel, ?_⟩
    rw [ended fuel le_rfl]
    exact fun same => nomatch same
  · intro fuel finished
    exact ⟨_, _, _, settles.result finished, untouched.isolated absent⟩

end Supply

end Paging

end WindOs.Mm
