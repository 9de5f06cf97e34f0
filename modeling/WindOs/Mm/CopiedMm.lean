import WindOs.Mm.DeleteMm

namespace WindOs.Mm

open Data

/-! # The structure that copy_mm copies

`memcpy(mm, old_mm, sizeof(struct mm_struct))` copies the heads of both lists.  The head
of the VMA list is made new afterwards, that of the replacement queue is not: its links
lead into the queue of the parent.
-/

/-- What a link of a replacement queue may lead to: `&mm->vm_fifo` of the `mm` with this
number, the `node` of a page, or the head of the free list.  Number 0 is the global `mm`. -/
inductive QueueNode where
  | mm (number : Nat)
  | page (p : Nat)
  | freePages
deriving DecidableEq, Repr

/-- The links of the pages and of the global `mm`. -/
def PageNode.queueNode : PageNode → QueueNode
  | .head => .freePages
  | .vmFifo => .mm 0
  | .page p => .page p

/-- `struct list_node vm_fifo` -/
structure QueueHead where
  prev : QueueNode
  next : QueueNode
deriving DecidableEq, Repr

/-- `struct mm_struct` with its queue.  The head of the global `mm` is kept with the pages instead. -/
structure QueuedMm where
  number : Nat
  paged : PagedMm
  vmFifo : QueueHead

namespace QueuedMm

open Paging

/-- `mm->vm_fifo` -/
def head (mm : QueuedMm) (pg : Paging) : QueueHead :=
  if mm.number = 0 then
    { prev := (pg.area.nodes.prev .vmFifo).queueNode, next := (pg.area.nodes.next .vmFifo).queueNode }
  else mm.vmFifo

/-- `copy_mm(pcb, 0, old_mm)`, where `malloc` returns the structure with the new number.
The bytes are copied right after that, and nothing writes to this head afterwards. -/
def copyMm (nullIndex fuel : Nat) (pg : Paging) (heap : Heap) (old : QueuedMm) (number : Nat) :
    Except Halt (QueuedMm × Paging × Heap) := do
  let (begun, _) ← pg.malloc nullIndex fuel heap sizeofMm
  let (paged, after, heap) ← pg.copyMm nullIndex fuel heap old.paged
  .ok ({ number, paged, vmFifo := old.head begun }, after, heap)

/-- The queues of two `mm`s, with the nodes of the pages. -/
def queues (pg : Paging) (old child : QueuedMm) : Links QueueNode where
  next
    | .freePages => (pg.area.nodes.next .head).queueNode
    | .page p => (pg.area.nodes.next (.page p)).queueNode
    | .mm k => if k = child.number then (child.head pg).next
        else if k = old.number then (old.head pg).next else .mm k
  prev
    | .freePages => (pg.area.nodes.prev .head).queueNode
    | .page p => (pg.area.nodes.prev (.page p)).queueNode
    | .mm k => if k = child.number then (child.head pg).prev
        else if k = old.number then (old.head pg).prev else .mm k

/-- The number is that of a structure that is being made: it is not the global `mm`, and
nothing leads to it yet. -/
structure Unused (old : QueuedMm) (number : Nat) : Prop where
  notGlobal : number ≠ 0
  different : number ≠ old.number
  unlinked : old.vmFifo.prev ≠ .mm number ∧ old.vmFifo.next ≠ .mm number

/-- The child has the VMAs of the parent and nothing else of it, and the parent is as it was. -/
structure SelfContained (pg after : Paging) (old child : QueuedMm) : Prop where
  vmas : ∃ order copies : List Nat, old.paged.list.nodes.IsRing .head (order.map .vma) ∧
    child.paged.list.nodes.IsRing .head (copies.map .vma) ∧
    copies.map child.paged.list.vmas = order.map old.paged.list.vmas
  cache : ∀ v, child.paged.list.cache = some v →
    old.paged.list.allocated ≤ v ∧ v < child.paged.list.allocated
  fifo : ∃ queue, (queues after old child).IsRing (.mm child.number) queue ∧
    ∀ theirs, (queues after old child).IsRing (.mm old.number) theirs →
      ∀ node ∈ queue, node ∉ QueueNode.mm old.number :: theirs
  parent : ∀ theirs, (queues pg old child).IsRing (.mm old.number) theirs →
    (queues after old child).IsRing (.mm old.number) theirs

variable {pg after : Paging} {heap later : Heap} {old child : QueuedMm} {number nullIndex fuel : Nat}

theorem queueNode_ne {node : PageNode} (notGlobal : number ≠ 0) :
    node.queueNode ≠ .mm number := by
  cases node with
  | head => exact fun same => nomatch same
  | vmFifo => exact fun same => notGlobal (QueueNode.mm.inj same).symm
  | page p => exact fun same => nomatch same

theorem head_ne (unused : old.Unused number) :
    (old.head pg).prev ≠ .mm number ∧ (old.head pg).next ≠ .mm number := by
  unfold head
  split
  · exact ⟨queueNode_ne unused.notGlobal, queueNode_ne unused.notGlobal⟩
  · exact unused.unlinked

/-- The child's queue begins where the parent's began when it was copied. -/
theorem copyMm_head (done : copyMm nullIndex fuel pg heap old number = .ok (child, after, later))
    (unused : old.Unused number) :
    child.number = number ∧ ∃ begun, child.head after = old.head begun := by
  obtain ⟨⟨begun, _⟩, -, copied⟩ := ok_of_bind done
  obtain ⟨⟨paged, last, left⟩, -, same⟩ := ok_of_bind copied
  cases same
  exact ⟨rfl, begun, if_neg unused.notGlobal⟩

/-- No link of a page or of the parent leads to the child. -/
theorem queues_prev_ne (unused : old.Unused child.number) {node : QueueNode}
    (other : node ≠ .mm child.number) : (queues pg old child).prev node ≠ .mm child.number := by
  cases node with
  | freePages => exact queueNode_ne unused.notGlobal
  | page p => exact queueNode_ne unused.notGlobal
  | mm k =>
      have notChild : k ≠ child.number := fun same => other (by rw [same])
      simp only [queues, if_neg notChild]
      split
      · exact (head_ne unused).1
      · exact other

theorem queue_not_ring (unused : old.Unused child.number)
    (shared : (child.head pg).next ≠ .mm child.number) (queue : List QueueNode) :
    ¬ (queues pg old child).IsRing (.mm child.number) queue := by
  intro ring
  have first : (queues pg old child).next (.mm child.number) = (child.head pg).next := if_pos rfl
  rw [ring.next_head] at first
  cases queue with
  | nil => exact shared first.symm
  | cons node rest =>
      have member : node ≠ .mm child.number := by
        rintro rfl
        exact (List.nodup_cons.mp ring.nodup).1 List.mem_cons_self
      have whole : (queues pg old child).IsRing (.mm child.number) ([] ++ node :: rest) := ring
      exact queues_prev_ne unused member whole.prev_member

/-- Whatever the parent is, the queue of the child is not its own. -/
theorem copied_queue_shared (done : copyMm nullIndex fuel pg heap old number = .ok (child, after, later))
    (unused : old.Unused number) : ¬ SelfContained pg after old child := by
  obtain ⟨rfl, begun, copied⟩ := copyMm_head done unused
  intro contained
  obtain ⟨queue, ring, -⟩ := contained.fifo
  refine queue_not_ring unused ?_ queue ring
  rw [copied]
  exact (head_ne unused).2

/-- The first copy of the global `mm`. -/
theorem copied_queue_shared_global :
    ∃ child after later, copyMm nullBelow 4 bootPages oneFree
          { number := 0, paged := bootMm, vmFifo := ⟨.mm 0, .mm 0⟩ } 1 = .ok (child, after, later) ∧
      ¬ SelfContained bootPages after { number := 0, paged := bootMm, vmFifo := ⟨.mm 0, .mm 0⟩ } child := by
  have returns : (copyMm nullBelow 4 bootPages oneFree
      { number := 0, paged := bootMm, vmFifo := ⟨.mm 0, .mm 0⟩ } 1).toOption.isSome := by
    decide +kernel
  obtain ⟨⟨child, after, later⟩, result⟩ := Option.isSome_iff_exists.mp returns
  have done := ok_of_toOption result
  exact ⟨child, after, later, done, copied_queue_shared done ⟨by decide, by decide, by decide⟩⟩

/-- A process whose queue is empty forks: the queue of the child leads to the head of the
parent's, from where no way leads back. -/
theorem forked_queue_leads_to_parent :
    ∃ child after later, copyMm nullBelow 4 bootPages oneFree
          { number := 1, paged := bootMm, vmFifo := ⟨.mm 1, .mm 1⟩ } 2 = .ok (child, after, later) ∧
      child.number = 2 ∧ child.vmFifo = ⟨.mm 1, .mm 1⟩ ∧
      ¬ SelfContained bootPages after { number := 1, paged := bootMm, vmFifo := ⟨.mm 1, .mm 1⟩ } child := by
  have returns : (copyMm nullBelow 4 bootPages oneFree
      { number := 1, paged := bootMm, vmFifo := ⟨.mm 1, .mm 1⟩ } 2).toOption.any fun result =>
        result.1.number = 2 ∧ result.1.vmFifo = ⟨.mm 1, .mm 1⟩ := by
    decide +kernel
  obtain ⟨⟨child, after, later⟩, result, checked⟩ := (Option.any_eq_true _ _).mp returns
  obtain ⟨number, leads⟩ := of_decide_eq_true checked
  refine ⟨child, after, later, ok_of_toOption result, number, leads, ?_⟩
  change child.number = 2 at number
  change child.vmFifo = _ at leads
  intro contained
  obtain ⟨queue, ring, -⟩ := contained.fifo
  have head : child.head after = child.vmFifo := if_neg (by rw [number]; decide)
  refine queue_not_ring ?_ ?_ queue ring
  · rw [number]
    exact ⟨by decide, by decide, by decide⟩
  · rw [head, leads, number]
    decide

end QueuedMm

end WindOs.Mm
