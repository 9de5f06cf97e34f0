import WindOs.Data.Bytes
import WindOs.Mm.PagePointers
import WindOs.Mm.Vma

namespace WindOs.Mm

open Data

/-! # Page tables and the swap of pmm.c, vmm.c and swap.c

A `struct Page` is named by the number of its frame.  Page directories and page
tables are frames of the physical memory, and a pointer to an entry is a frame
with an index.  The mappings through which the kernel follows such pointers are
taken to be there.  The free list and `mm->vm_fifo` share the nodes of the pages.
-/

namespace Entry

def sign (entry : Nat) : Nat := entry % 2 ^ 9

/-- `pt_addr` or `page_addr`. -/
def addr (entry : Nat) : Nat := entry / 2 ^ 12

def setSign (entry sign : Nat) : Nat := 2 ^ 9 * (entry / 2 ^ 9) + sign % 2 ^ 9

def setOs (entry os : Nat) : Nat := 
  entry % 2 ^ 9 + 2 ^ 9 * (os % 2 ^ 3) + 2 ^ 12 * (entry / 2 ^ 12)

def setAddr (entry addr : Nat) : Nat := entry % 2 ^ 12 + 2 ^ 12 * (addr % 2 ^ 20)

/-- `(sign & 0x1) == 1` -/
def Present (entry : Nat) : Prop := sign entry % 2 = 1

instance (entry : Nat) : Decidable (Present entry) := inferInstanceAs (Decidable (_ = _))

/-- `get_pg_addr_la` of the entry. -/
def getPgAddrLa (entry : Nat) : Nat := (pageSize * addr entry + vertualMem) % 2 ^ 32

theorem present_iff {entry : Nat} : Present entry ↔ entry % 2 = 1 := by
  simp only [Present, sign]
  omega

end Entry

/-- How a function may end other than by returning. -/
inductive Halt where
  /-- `alloc_page` or `free_page` came to no end, or there was no page to be had. -/
  | allocator
  /-- The search for a VMA came to no end. -/
  | unfinished
  /-- The `NULL` that `get_pte` returned was followed. -/
  | nullPte
  /-- A pointer to this page that `alloc_page` has raised twice was followed: the page fault is one
  that is not served. -/
  | wildPage (page : Nat)
  | panic (message : String)
  /-- A page fault that is not served. -/
  | fault (la : Nat)
deriving DecidableEq, Repr

/-- The memory, the `struct Page`s, the global `mm` and the swap disk. -/
structure Paging where
  memory : Nat → Bytes
  disk : Disk
  ref : Nat → Int
  va : Nat → Nat
  area : FreeArea
  /-- How many `struct Page`s there are, and the frame of the first. -/
  count : Nat
  base : Nat
  isVmmInited : Bool
  /-- `mm`, with the frame of `mm->pde`. -/
  mm : VmaList
  pde : Nat
  /-- The entries that the processor has cached, by the number of their page. -/
  tlb : Nat → Option Nat

namespace Paging

def entry (pg : Paging) (frame i : Nat) : Nat := (pg.memory frame).word i

def setEntry (pg : Paging) (frame i entry : Nat) : Paging :=
  { pg with memory := Function.update pg.memory frame ((pg.memory frame).setWord i entry) }

/-- `get_pte(pde, la, 0)` -/
def lookupPte (pg : Paging) (pde la : Nat) : Option (Nat × Nat) :=
  if Entry.Present (pg.entry pde (la / 2 ^ 22)) then
    some (Entry.addr (pg.entry pde (la / 2 ^ 22)), la / 2 ^ 12 % 2 ^ 10)
  else none

/-- The walk of the page tables by the processor. -/
def translate (pg : Paging) (pde la : Nat) : Option Nat :=
  (pg.lookupPte pde la).bind fun (frame, i) =>
    if Entry.Present (pg.entry frame i) then some (Entry.addr (pg.entry frame i)) else none

/-- Follow a pointer that `get_pte` returned. -/
def deref : Option (Nat × Nat) → Except Halt (Nat × Nat)
  | none => .error .nullPte
  | some pte => .ok pte

/-- `&page->node` -/
def node (pg : Paging) (page : Nat) : PageNode := .page (page - pg.base)

def setNodes (pg : Paging) (nodes : Links PageNode) : Paging :=
  { pg with area := { pg.area with nodes } }

/-- `invlpg (la)` -/
def invlpg (pg : Paging) (la : Nat) : Paging :=
  { pg with tlb := Function.update pg.tlb (la / pageSize) none }

section Pointers

variable [Aliases]

/-- `free_page` of a page by its physical or its raised pointer. -/
def freePage (pg : Paging) (page n : Nat) (raised : Bool := false) : Except Halt Paging :=
  match Aliases.freePage (pg.count + 1) pg.area ⟨page - pg.base, raised⟩ n with
  | some area => .ok { pg with area }
  | none => .error .allocator

/-- Follow the pointer to a `struct Page` that `alloc_page` returned. -/
def derefPage (pg : Paging) (page : Nat) : Except Halt Unit :=
  if Aliases.wild pg.area (page - pg.base) then .error (.wildPage page) else .ok ()

/-- The sector of `swap.img` at which a page is kept. -/
def sector (slot : Nat) : Nat := pageSize * slot % 2 ^ 32 / Disk.sectSize

/-- Write a page to its slot on disk, name the slot in its entry, which is cleared
first, and take it off the FIFO. -/
def writeOut (pg : Paging) (page frame i : Nat) : Paging :=
  { (pg.setEntry frame i (2 ^ 8 * (pg.va page / pageSize + 1) % 2 ^ 32)).setNodes
      (listDelete pg.area.nodes (pg.node page)) with
    disk := pg.disk.write (sector (pg.va page / pageSize + 1)) (pageSize / Disk.sectSize)
      (pg.memory page) }

/-- The body of the loop of `swap_out`.  The FIFO holds the pointers that `alloc_page` returned. -/
def evict (pg : Paging) (page : Nat) : Except Halt Paging := do
  let (frame, i) ← deref (pg.lookupPte pg.pde (pg.va page))
  (pg.writeOut page frame i).freePage page 1 true

/-- One round of the loop of `swap_out`, with the variables `begin` and `n`. -/
def swapOutRound : PageNode × Nat × Paging → (PageNode × Nat × Paging) ⊕ Except Halt Paging
  | (begin, n, pg) =>
      match pg.area.nodes.next begin, n with
      | .page p, n + 1 =>
          attempt (pg.evict (pg.base + p)) fun pg => (pg.area.nodes.next begin, n, pg)
      | _, _ => .inr (.ok pg)

/-- `swap_out(mm, n)`; every round counts `n` down. -/
def swapOut (pg : Paging) (n : Nat) : Except Halt Paging :=
  (loop swapOutRound (n + 1) (.vmFifo, n, pg)).getD (.error .unfinished)

/-- The frame of the first page, `none` for `NULL`. -/
def allocPage (pg : Paging) (n : Nat) : Except Halt (Option Nat × Paging) :=
  match pg.area.allocPage (pg.count + 1) n with
  | none => .error .allocator
  | some (none, area) => .ok (none, { pg with area })
  | some (some page, area) => do
      let pg := { pg with area }
      let pg ← if pg.isVmmInited ∧ n = 1 then pg.swapOut 1 else .ok pg
      .ok (some (pg.base + page), pg)

theorem freePage_ok {pg : Paging} {page n : Nat} {raised : Bool} {area : FreeArea}
    (done : Aliases.freePage (pg.count + 1) pg.area ⟨page - pg.base, raised⟩ n = some area) :
    pg.freePage page n raised = .ok { pg with area } := by
  unfold freePage
  rw [done]

theorem allocPage_refused {pg : Paging} {n : Nat}
    (refused : pg.area.allocPage (pg.count + 1) n = some (none, pg.area)) :
    pg.allocPage n = .ok (none, pg) := by
  unfold allocPage
  rw [refused]

theorem allocPage_served {pg : Paging} {n p : Nat} {area : FreeArea}
    (served : pg.area.allocPage (pg.count + 1) n = some (some p, area)) :
    pg.allocPage n =
      (if pg.isVmmInited ∧ n = 1 then { pg with area }.swapOut 1 else .ok { pg with area }) >>=
        fun pg => .ok (some (pg.base + p), pg) := by
  unfold allocPage
  rw [served]
  by_cases evicts : pg.isVmmInited ∧ n = 1
  · simp only [if_pos evicts]
  · simp only [if_neg evicts]

/-- A page is mapped once less, and given back by its physical pointer when that was the last time. -/
def dropRef (pg : Paging) (page : Nat) : Except Halt Paging :=
  let pg := { pg with ref := Function.update pg.ref page (pg.ref page - 1) }
  if pg.ref page = 0 then pg.freePage page 1 else .ok pg

def unmap (pg : Paging) (pde la : Nat) : Except Halt Paging := do
  let (frame, i) ← deref (pg.lookupPte pde la)
  if Entry.Present (pg.entry frame i) then do
    let pg ← pg.dropRef (Entry.addr (pg.entry frame i))
    let pg := pg.setEntry frame i (Entry.setAddr (pg.entry frame i) 0)
    let pg := pg.setEntry frame i (Entry.setSign (pg.entry frame i) 0)
    .ok (pg.invlpg la)
  else .ok pg

section Alloc

/-! ## What may allocate

The call of `alloc_page(1)` is a parameter, so that what is assumed of it can be
checked where it returns.
-/

variable (alloc : Paging → Except Halt (Option Nat × Paging))

/-- The new page table of `get_pte`, in the frame that was allocated for it. -/
def newTable (pg : Paging) (pde i frame : Nat) : Paging :=
  let pg := { pg with
    ref := Function.update pg.ref frame 1
    memory := Function.update pg.memory frame Bytes.zero }
  pg.setEntry pde i
    (Entry.setAddr (Entry.setSign (Entry.setOs (pg.entry pde i) 0) 7) frame)

/-- `get_pte(pde, la, 1)` -/
def getPte (pg : Paging) (pde la : Nat) : Except Halt (Option (Nat × Nat) × Paging) :=
  if Entry.Present (pg.entry pde (la / 2 ^ 22)) then .ok (pg.lookupPte pde la, pg)
  else do
    let (page, pg) ← alloc pg
    match page with
    | none => .ok (none, pg)
    | some frame => do
        pg.derefPage frame
        let pg := pg.newTable pde (la / 2 ^ 22) frame
        .ok (some (Entry.addr (pg.entry pde (la / 2 ^ 22)), la / 2 ^ 12 % 2 ^ 10), pg)

/-- What `map` does with a page that the entry maps already. -/
def replace (pg : Paging) (pde frame i page : Nat) : Except Halt Paging :=
  if Entry.Present (pg.entry frame i) then
    if Entry.addr (pg.entry frame i) = page then
      .ok { pg with ref := Function.update pg.ref page (pg.ref page - 1) }
    else pg.unmap pde (Entry.getPgAddrLa (pg.entry frame i))
  else .ok pg

/-- `map(pde, la, pa, bitsign)`, where `page` is the page at `pa`. -/
def map (pg : Paging) (pde la page bitsign : Nat) : Except Halt Paging := do
  let (pte, pg) ← pg.getPte alloc pde la
  let pg := { pg with ref := Function.update pg.ref page (pg.ref page + 1) }
  let (frame, i) ← deref pte
  let pg ← pg.replace pde frame i page
  let pg := pg.setEntry frame i (Entry.setSign (pg.entry frame i) bitsign)
  let pg := pg.setEntry frame i (Entry.setAddr (pg.entry frame i) page)
  .ok (pg.invlpg la)

/-- `list_insert_before(&mm->vm_fifo, &page->node)` -/
def enqueue (pg : Paging) (page : Nat) : Paging :=
  pg.setNodes (listInsertBefore pg.area.nodes .vmFifo (pg.node page))

def swapIn (pg : Paging) (faultAddr : Nat) : Except Halt Paging := do
  let wrongPte := pg.lookupPte pg.pde faultAddr
  let (page, pg) ← alloc pg
  match page with
  | none => .error .allocator
  | some page => do
      let (frame, i) ← deref wrongPte
      let sect := sector (pg.entry frame i / 2 ^ 8)
      let pg := { pg with
        memory := Function.update pg.memory page
          (pg.disk.read sect (pageSize / Disk.sectSize) (pg.memory page)) }
      let pg ← pg.map alloc pg.pde faultAddr page 7
      pg.derefPage page
      .ok ({ pg with va := Function.update pg.va page faultAddr }.enqueue page)

/-- The first touch of a page in `do_swap`. -/
def touch (pg : Paging) (faultPgAddr sign : Nat) : Except Halt Paging := do
  let (page, pg) ← alloc pg
  match page with
  | none => .ok pg
  | some page => do
      pg.derefPage page
      let pg := { pg with va := Function.update pg.va page faultPgAddr }
      let pg ← pg.map alloc pg.pde faultPgAddr page sign
      .ok (pg.enqueue page)

/-- The part of `do_swap` after the checks of the VMA. -/
def bindPage (pg : Paging) (faultPgAddr sign : Nat) : Except Halt Paging := do
  let (pte, pg) ← pg.getPte alloc pg.pde faultPgAddr
  let (frame, i) ← deref pte
  if Entry.addr (pg.entry frame i) = 0 ∧ Entry.sign (pg.entry frame i) = 0 then
    pg.touch alloc faultPgAddr sign
  else pg.swapIn alloc faultPgAddr

/-- The comparison of a masked flag with 1 never holds, so a new page is read-only. -/
def doSwap (pg : Paging) (cr2 : Nat) (isWrite : Bool) : Except Halt Paging :=
  let faultPgAddr := cr2 - cr2 % pageSize
  match pg.mm.findVma (pg.mm.allocated + 1) faultPgAddr with
  | none => .error .unfinished
  | some (none, _) => .error (.panic "didn't find vma... wrong.\n")
  | some (some vma, mm) =>
      let flags := (mm.vmas vma).flags
      if isWrite ∧ flags &&& 0x2 = 0 then
        .error (.panic "vma struct's flag said cannot write! wrong.\n")
      else if ¬ isWrite ∧ flags &&& (0x1 ||| 0x4) = 0 then
        .error (.panic "vma struct's flag said cannot read or exec! wrong.\n")
      else
        bindPage alloc { pg with mm } faultPgAddr (if flags &&& 0x2 = 1 then 0x7 else 0x5)

end Alloc

end Pointers

theorem derefPage_together {pg : Paging} {page : Nat} : pg.derefPage page = .ok () := rfl

end Paging

end WindOs.Mm
