import WindOs.Mm.AddressSpace
import WindOs.Mm.MallocPages

namespace WindOs.Mm

open Data

/-! # copy_mm of proc.c

`copy_mm(pcb, 0, old_mm)` runs with the directory of the old `mm` loaded.  Pages are
copied through the addresses that the code gives: directories at their physical
addresses, which the boot tables map to themselves, and all other pages at their
kernel addresses.
-/

/-- `struct mm_struct`: the VMA list, and the address in `mm->pde`. -/
structure PagedMm where
  list : VmaList
  pde : Nat

namespace PagedMm

/-- The frame of the directory. -/
def directory (mm : PagedMm) : Nat := mm.pde / pageSize

/-- A VMA that is reached along the list from `mm->node`. -/
def HasVma (mm : PagedMm) (v : Nat) : Prop :=
  ∃ rounds, mm.list.nodes.next^[rounds] .head = .vma v

def InVma (mm : PagedMm) (la : Nat) : Prop :=
  ∃ v, mm.HasVma v ∧ (mm.list.vmas v).vmmStart ≤ la ∧ la < (mm.list.vmas v).vmmEnd

end PagedMm

namespace Paging

open VmState

/-- A directory refers to a page table. -/
def Refers (pg : Paging) (directory table : Nat) : Prop :=
  ∃ i < 1024, Entry.Present (pg.entry directory i) ∧ Entry.addr (pg.entry directory i) = table

/-- `memcpy` of a page, with both addresses translated by the loaded directory. -/
def copyPage (pg : Paging) (cr3 dst src : Nat) : Except Halt Paging :=
  match pg.translate cr3 src, pg.translate cr3 dst with
  | none, _ => .error (.fault src)
  | some _, none => .error (.fault dst)
  | some source, some target =>
      .ok { pg with memory := Function.update pg.memory target (pg.memory source) }

section Pointers

variable [Aliases]

/-- The child gets a table of its own where it has that of the parent.  A `NULL` from
the second `get_pte` is not looked at. -/
def ownTable (pg : Paging) (pde oldPde start : Nat) (oldPte : Nat × Nat) : Except Halt Paging := do
  let (pte, pg) ← pg.getPte allocOne pde start
  if pte = some oldPte then do
    let pg := pg.setEntry pde (start / 2 ^ 22)
      (Entry.setSign (pg.entry pde (start / 2 ^ 22)) (0x4 ||| 0x2))
    let (_, pg) ← pg.getPte allocOne pde start
    .ok { pg with
      memory := Function.update pg.memory (Entry.addr (pg.entry pde (start / 2 ^ 22)))
        (pg.memory (Entry.addr (pg.entry oldPde (start / 2 ^ 22)))) }
  else .ok pg

/-- The copy of a page that the parent has present. -/
def copyMapped (pg : Paging) (pde oldPde start : Nat) (oldPte : Nat × Nat) :
    Except Halt Paging := do
  let pg ← pg.ownTable pde oldPde start oldPte
  let oldPageAddrLa := Entry.getPgAddrLa (pg.entry oldPte.1 oldPte.2)
  let (page, pg) ← pg.allocPage 1
  match page with
  | none => .error .allocator
  | some page => do
      let bitsign := Entry.sign (pg.entry oldPte.1 oldPte.2) &&& 0x3 ||| 0x4
      let pg ← pg.map allocOne pde start page bitsign
      pg.copyPage oldPde (pgToAddrLa page) oldPageAddrLa

/-- `start += PAGE_SIZE` -/
def nextPage (start : Nat) : Nat := (start + pageSize) % 2 ^ 32

/-- `start += 1024 * PAGE_SIZE`, also when `start` is not the first page of its table. -/
def nextTable (start : Nat) : Nat := (start + 1024 * pageSize) % 2 ^ 32

/-- One round of the loop over the pages of a VMA. -/
def copyPageRound (pde oldPde vmmEnd : Nat) : Nat × Paging → (Nat × Paging) ⊕ Except Halt Paging
  | (start, pg) =>
      if start < vmmEnd then
        match pg.lookupPte oldPde start with
        | none => .inl (nextTable start, pg)
        | some oldPte =>
            if Entry.Present (pg.entry oldPte.1 oldPte.2) then
              attempt (pg.copyMapped pde oldPde start oldPte) fun pg => (nextPage start, pg)
            else .inl (nextPage start, pg)
      else .inr (.ok pg)

def copyPages (fuel : Nat) (pg : Paging) (pde oldPde vmmStart vmmEnd : Nat) : Except Halt Paging :=
  (loop (copyPageRound pde oldPde vmmEnd) fuel (vmmStart, pg)).getD (.error .unfinished)

/-- `sizeof(struct mm_struct)` -/
def sizeofMm : Nat := 28

/-- `sizeof(struct vma_struct)` -/
def sizeofVma : Nat := 24

/-- `create_vma` with its `malloc`.  The new VMA is named by its number, not by its address. -/
def createVma (nullIndex fuel : Nat) (pg : Paging) (heap : Heap) (list : VmaList)
    (fields : VmaStruct) : Except Halt (VmaList × Paging × Heap) := do
  let (pg, heap, _) ← pg.malloc nullIndex fuel heap sizeofVma
  match list.createVma fuel fields with
  | none => .error .unfinished
  | some (list, _) => .ok (list, pg, heap)

/-- The body of the loop over the VMAs. -/
def copyVma (nullIndex fuel : Nat) (pg : Paging) (heap : Heap) (list : VmaList) (pde oldPde : Nat)
    (fields : VmaStruct) : Except Halt (VmaList × Paging × Heap) := do
  let (list, pg, heap) ← pg.createVma nullIndex fuel heap list fields
  let pg ← pg.copyPages fuel pde oldPde fields.vmmStart fields.vmmEnd
  .ok (list, pg, heap)

/-- One round of the loop over the VMAs of the old `mm`, with the list of the new one. -/
def copyVmaRound (nullIndex fuel : Nat) (old : VmaList) (pde oldPde : Nat) :
    VmaNode × VmaList × Paging × Heap →
      (VmaNode × VmaList × Paging × Heap) ⊕ Except Halt (VmaList × Paging × Heap)
  | (.head, result) => .inr (.ok result)
  | (.vma v, list, pg, heap) =>
      attempt (pg.copyVma nullIndex fuel heap list pde oldPde (old.vmas v)) fun result =>
        (old.nodes.next (.vma v), result)

/-- The new `mm` starts as a copy of the structure with an empty list, and its
directory as a copy of the directory. -/
def copyMm (nullIndex fuel : Nat) (pg : Paging) (heap : Heap) (old : PagedMm) :
    Except Halt (PagedMm × Paging × Heap) := do
  let (pg, heap, _) ← pg.malloc nullIndex fuel heap sizeofMm
  let (newPde, pg) ← pg.allocPage 1
  match newPde with
  | none => .error .allocator
  | some newPde => do
      let mm := { old with
        list := { old.list with nodes := listInit old.list.nodes .head }
        pde := pgToAddrPa newPde }
      let pg ← pg.copyPage old.directory mm.pde old.pde
      let (list, pg, heap) ← (loop (copyVmaRound nullIndex fuel old.list mm.directory old.directory)
        fuel (old.list.nodes.next .head, mm.list, pg, heap)).getD (.error .unfinished)
      .ok ({ mm with list }, pg, heap)

end Pointers

/-- An `mm` without VMAs in the directory of `bootPages`. -/
def bootMm : PagedMm := { list := VmaList.createMm, pde := pageSize }

end Paging

end WindOs.Mm
