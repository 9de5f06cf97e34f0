import WindOs.Mm.PageInit
import WindOs.Proc.ForkFailure

namespace WindOs.Proc

open Data Mm

/-! # The trap frame of a fork

`system_intr` finds the registers of the caller on its kernel stack, where the interrupt
has put them.  `copy_thread` copies them to the end of the new stack, and from there they
are restored when the new process runs first.  The words of the kernel stacks are kept
apart from the pages that `copy_mm` works on.
-/

/-- The members of `struct idtframe` in their order. -/
inductive Register where
  | myEax
  | edi | esi | ebp | noUseEsp | ebx | edx | ecx | eax
  | intrNo | errorCode
  | eip | cs | eflags | esp | ss
deriving DecidableEq, Repr

/-- `struct idtframe` -/
abbrev IdtFrame : Type := Register → BitVec 32

/-- The words of the stacks by their addresses. -/
abbrev Words : Type := Nat → BitVec 32

/-- `sizeof(struct idtframe)` -/
def sizeofIdtframe : Nat := 64

theorem Register.ctorIdx_lt (r : Register) : 4 * r.ctorIdx + 4 ≤ sizeofIdtframe := by
  cases r <;> decide

namespace Words

variable {words : Words} {addr other : Nat} {saved : IdtFrame} {r : Register} {word : BitVec 32}

/-- Where a register is in the frame at an address. -/
def slot (addr : Nat) (r : Register) : Nat := addr + 4 * r.ctorIdx

def frame (words : Words) (addr : Nat) : IdtFrame := fun r => words (slot addr r)

def setRegister (words : Words) (addr : Nat) (r : Register) (word : BitVec 32) : Words :=
  Function.update words (slot addr r) word

/-- The assignment of a whole `struct idtframe`. -/
def setFrame (words : Words) (addr : Nat) (saved : IdtFrame) : Words := fun a =>
  if addr ≤ a ∧ a < addr + sizeofIdtframe ∧ (a - addr) % 4 = 0 then
    saved (Register.ofNat ((a - addr) / 4))
  else words a

theorem slot_inj {s : Register} (same : slot addr r = slot addr s) : r = s := by
  simp only [slot] at same
  have index : r.ctorIdx = s.ctorIdx := by omega
  rw [← Register.ofNat_ctorIdx r, index, Register.ofNat_ctorIdx]

theorem frame_setRegister :
    (words.setRegister addr r word).frame addr = Function.update (words.frame addr) r word := by
  funext s
  by_cases same : s = r
  · subst same
    simp [frame, setRegister]
  · have apart : slot addr s ≠ slot addr r := fun equal => same (slot_inj equal)
    simp [frame, setRegister, same, apart]

theorem frame_setFrame : (words.setFrame addr saved).frame addr = saved := by
  funext s
  have size := s.ctorIdx_lt
  have inside : addr ≤ slot addr s ∧ slot addr s < addr + sizeofIdtframe ∧
      (slot addr s - addr) % 4 = 0 := by
    simp only [slot]
    omega
  have index : (slot addr s - addr) / 4 = s.ctorIdx := by
    simp only [slot]
    omega
  simp only [Words.frame, setFrame, if_pos inside, index, Register.ofNat_ctorIdx]

theorem setFrame_of_outside {a : Nat} (outside : a < addr ∨ addr + sizeofIdtframe ≤ a) :
    words.setFrame addr saved a = words a := by
  unfold setFrame
  rw [if_neg]
  omega

theorem setRegister_of_outside {a : Nat} (outside : a < addr ∨ addr + sizeofIdtframe ≤ a) :
    words.setRegister addr r word a = words a := by
  have size := r.ctorIdx_lt
  refine Function.update_of_ne ?_ _ _
  simp only [slot]
  omega

/-- Frames that have no word in common are written independently. -/
theorem frame_setRegister_of_apart (apart : ∀ s, slot addr s ≠ slot other r) :
    (words.setRegister other r word).frame addr = words.frame addr := by
  funext s
  exact Function.update_of_ne (apart s) _ _

end Words

/-- The members of `pcb_t` that `ProcTable` leaves out.  Of the context only these two are
ever set before the process runs. -/
structure Thread where
  mm : Option PagedMm
  backupPde : Nat
  contextEip : Nat
  contextEsp : Nat
  frame : Nat

/-- The addresses of `pd`, `exit_proc` and `context_to_intr`. -/
structure Symbols where
  pd : Nat
  exitProc : Nat
  contextToIntr : Nat

structure Machine extends Resources where
  words : Words
  thread : Nat → Thread
  current : Nat

namespace Machine

section Code

variable (symbols : Symbols) (nullIndex fuel : Nat)

/-- The part of `create_pcb` that `ProcTable.createPcb` leaves out. -/
def createThread (m : Machine) (pcb : Nat) : Machine :=
  { m with thread := Function.update m.thread pcb { m.thread pcb with
      mm := none, backupPde := symbols.pd, contextEip := 0, contextEsp := 0 } }

/-- The end of `set_kthread_stack`. -/
def storeExitProc (m : Machine) (pcb : Nat) (offset : BitVec 32) : Machine :=
  let startStack := (m.table.pcb (some pcb)).startStack
  if offset ≠ 0 then
    { m with words := Function.update m.words startStack (BitVec.ofNat 32 symbols.exitProc) }
  else m

/-- `copy_mm(pcb, 0, current->mm)` -/
def copyMm (m : Machine) (pcb : Nat) : Except Halt Machine :=
  match (m.thread m.current).mm with
  | none => .ok m
  | some oldMm => do
      let (mm, pg, heap) ← m.pg.copyMm nullIndex fuel m.heap oldMm
      .ok { m with
        pg
        heap
        thread := Function.update m.thread pcb
          { m.thread pcb with mm := some mm, backupPde := mm.pde } }

/-- `get_pte(pde, la, 0)->sign |= 0x4` -/
def allowUser (pg : Paging) (pde la : Nat) : Except Halt Paging := do
  let (frame, i) ← Paging.deref (pg.lookupPte pde la)
  let entry := pg.entry frame i
  .ok (pg.setEntry frame i (Entry.setSign entry (Entry.sign entry ||| 0x4)))

/-- The beginning of `copy_thread`: both pages of the stack, for a user process. -/
def allowStack (pg : Paging) (mm : Option PagedMm) (startStack : Nat) (offset : BitVec 32) :
    Except Halt Paging :=
  if offset = 0 then .ok pg
  else match mm with
  | none => .error (.fault 0)
  | some mm => do
      let pg ← allowUser pg mm.directory ((startStack + 4 + 2 ^ 32 - pageSize) % 2 ^ 32)
      allowUser pg mm.directory ((startStack + 4 + 2 ^ 32 - pageSize * 2) % 2 ^ 32)

def copyThread (m : Machine) (pcb : Nat) (offset : BitVec 32) (frame : Nat) :
    Except Halt Machine := do
  let startStack := (m.table.pcb (some pcb)).startStack
  let pg ← allowStack m.pg (m.thread pcb).mm startStack offset
  let newFrame := (startStack + 2 ^ 32 - sizeofIdtframe) % 2 ^ 32
  let words := m.words.setFrame newFrame (m.words.frame frame)
  -- How far the old stack pointer is below the end of its page, not of its stack.
  let words := words.setRegister newFrame .esp
    (if offset ≠ 0 then
      BitVec.ofNat 32 startStack + 4 - (BitVec.ofNat 32 (roundUp offset.toNat) - offset)
    else 0)
  let words := words.setRegister newFrame .eflags (words.frame newFrame .eflags ||| 0x200)
  .ok { m with
    pg
    words
    thread := Function.update m.thread pcb { m.thread pcb with
      frame := newFrame, contextEsp := newFrame, contextEip := symbols.contextToIntr } }

/-- `do_fork(0, stack_offset, frame)` -/
def doFork (m : Machine) (stackOffset : BitVec 32) (frame : Nat) : Except Halt (Int × Machine) :=
  if m.table.procNum > maxProcess then .ok (-1, m)
  else do
    let (pg, heap, pcb) ← m.pg.malloc nullIndex fuel m.heap pcbSize
    if pcb = 0 then .ok (-1, { m with pg, heap })
    else do
      let (stack, pg) ← pg.allocPage kthreadStackPage
      let (pid, table) := m.table.doFork (some m.current) (some pcb) (stack.map Paging.pgToAddrLa)
      let m := { m with pg, heap, table }.createThread symbols pcb
      match stack with
      | none => .ok (-1, { m with heap := heap.free pcb })
      | some _ => do
          let m := m.storeExitProc symbols pcb stackOffset
          if pid = -1 then do
            let startStack := (m.table.pcb (some pcb)).startStack
            let pg ← m.pg.freePage (m.pg.laAddrToPg startStack) kthreadStackPage
            .ok (-1, { m with pg, heap := heap.free pcb })
          else do
            let m ← m.copyMm nullIndex fuel pcb
            let m ← m.copyThread symbols pcb stackOffset frame
            .ok (pid, m)

def sysFork (m : Machine) : Except Halt (Int × Machine) :=
  let frame := (m.thread m.current).frame
  m.doFork symbols nullIndex fuel (m.words.frame frame .esp) frame

/-- A function of the table `system_call`, with its argument `arg`. -/
abbrev Handler : Type := (Nat → BitVec 32) → Machine → Except Halt (Int × Machine)

/-- `system_call`, of which only `sys_fork` is looked at. -/
def systemCall (others : BitVec 32 → Handler) : BitVec 32 → Handler :=
  Function.update others 2 fun _ => sysFork symbols nullIndex fuel

def setFrame (m : Machine) (frame : Nat) : Machine :=
  { m with thread := Function.update m.thread m.current { m.thread m.current with frame } }

def systemIntr (systemCall : BitVec 32 → Handler) (m : Machine) (frame : Nat) :
    Except Halt Machine := do
  let saved := m.words.frame frame
  let arg : Nat → BitVec 32 := fun i => if i = 0 then saved .ebx else if i = 1 then saved .ecx else 0
  let oldFrame := (m.thread m.current).frame
  let (result, m) ← systemCall (saved .edx) arg (m.setFrame frame)
  let m := { m with words := m.words.setRegister frame .eax (BitVec.ofInt 32 result) }
  .ok (m.setFrame oldFrame)

end Code

section Fork

variable {symbols : Symbols} {nullIndex fuel : Nat} {m after before : Machine} {pcb frame i : Nat}
  {offset : BitVec 32} {pid : Int} {free fifo : List Nat} {chunks : List Chunk}

/-- The frame of the new process. -/
def copiedFrame (startStack : Nat) (offset : BitVec 32) (saved : IdtFrame) : IdtFrame :=
  Function.update (Function.update saved .esp
    (if offset ≠ 0 then
      BitVec.ofNat 32 startStack + 4 - (BitVec.ofNat 32 (roundUp offset.toNat) - offset)
    else 0)) .eflags (saved .eflags ||| 0x200)

/-- The processes are as they were, and so are the threads of all others. -/
structure SameOthers (m after : Machine) (pcb : Nat) : Prop where
  table : after.table = m.table
  current : after.current = m.current
  thread : ∀ p ≠ pcb, after.thread p = m.thread p

theorem copyMm_done (done : m.copyMm nullIndex fuel pcb = .ok after) :
    SameOthers m after pcb ∧ after.words = m.words := by
  unfold copyMm at done
  cases old : (m.thread m.current).mm with
  | none =>
      rw [old] at done
      cases done
      exact ⟨⟨rfl, rfl, fun _ _ => rfl⟩, rfl⟩
  | some oldMm =>
      rw [old] at done
      obtain ⟨⟨mm, pg, heap⟩, -, ended⟩ := ok_of_bind done
      cases ended
      exact ⟨⟨rfl, rfl, fun p other => Function.update_of_ne other _ _⟩, rfl⟩

theorem copyThread_done (done : m.copyThread symbols pcb offset frame = .ok after)
    {startStack : Nat} (stack : (m.table.pcb (some pcb)).startStack = startStack)
    {newFrame : Nat} (below : (startStack + 2 ^ 32 - sizeofIdtframe) % 2 ^ 32 = newFrame) :
    SameOthers m after pcb ∧ (after.thread pcb).frame = newFrame ∧
      after.words.frame newFrame = copiedFrame startStack offset (m.words.frame frame) ∧
      ∀ a, a < newFrame ∨ newFrame + sizeofIdtframe ≤ a → after.words a = m.words a := by
  simp only [copyThread, stack, below] at done
  obtain ⟨pg, -, ended⟩ := ok_of_bind done
  cases ended
  refine ⟨⟨rfl, rfl, fun p other => Function.update_of_ne other _ _⟩, ?_, ?_, ?_⟩
  · simp only [Function.update_self]
  · simp only [Words.frame_setRegister, Words.frame_setFrame]
    rw [Function.update_of_ne (by decide)]
    rfl
  · intro a outside
    simp only [Words.setRegister_of_outside outside, Words.setFrame_of_outside outside]

/-- The address behind a stack of two pages. -/
def stackEnd (page : Nat) : Nat := Paging.pgToAddrLa page + pageSize * kthreadStackPage

theorem stackEnd_eq {page : Nat} (room : page + 2 < 2 ^ 18) :
    stackEnd page = pageSize * (page + 2) + vertualMem ∧ stackEnd page < 2 ^ 32 := by
  simp only [stackEnd, Paging.pgToAddrLa, pageSize, vertualMem, kthreadStackPage]
  omega

/-- A fork that succeeds: the pages `i` and `i + 1` were free, or `malloc` has evicted them, and the
new frame is on the second. -/
structure Forked (before after : Machine) (free fifo : List Nat) (offset : BitVec 32) (frame : Nat)
    (pid : Int) (pcb i : Nat) : Prop where
  current : after.current = before.current
  allocated : after.table.allocated = Function.update before.table.allocated pcb true
  pid : (after.table.pcb (some pcb)).pid = pid
  page : i + 1 ∈ free ∨ i + 1 ∈ fifo
  room : before.pg.base + i + 2 < 2 ^ 18
  stack : (after.table.pcb (some pcb)).startStack + 4 = stackEnd (before.pg.base + i)
  placed : (after.thread pcb).frame + sizeofIdtframe + 4 = stackEnd (before.pg.base + i)
  registers : after.words.frame (after.thread pcb).frame =
    copiedFrame (after.table.pcb (some pcb)).startStack offset (before.words.frame frame)
  words : ∀ a, ¬ OnPage (before.pg.base + (i + 1)) a → after.words a = before.words a

/-- What is on the free list after `malloc` was free or queued before. -/
theorem source_pages {before : Resources} {area : FreeArea} {listed : List Nat} {extra : Option Nat}
    (source : Resources.Source before free fifo chunks area listed extra) {q : Nat}
    (member : q ∈ listed) : q ∈ free ∨ q ∈ fifo := by
  cases source with
  | chunk => exact .inl member
  | page none first =>
      subst first
      exact .inl (List.mem_cons_of_mem _ member)
  | evicted none first busy queued members =>
      subst first
      rcases (members q).mp member with left | rfl
      · exact .inl (List.mem_cons_of_mem _ left)
      · exact .inr queued

/-- The end of a stack from the address that `set_kthread_stack` computes. -/
theorem startStack_eq {page : Nat} (room : page + 2 < 2 ^ 18) :
    (Paging.pgToAddrLa page + 4096 * kthreadStackPage + 2 ^ 32 - 4) % 2 ^ 32 + 4 = stackEnd page := by
  obtain ⟨address, below⟩ := stackEnd_eq room
  simp only [stackEnd, pageSize, vertualMem, kthreadStackPage] at *
  omega

/-- The end of a fork, after it has its pages and its pid. -/
theorem forked_of_copies {stored copied : Machine}
    (outside : ∀ r, ¬ OnPage (m.pg.base + (i + 1)) (Words.slot frame r))
    (room : m.pg.base + i + 2 < 2 ^ 18)
    (stack : (stored.table.pcb (some pcb)).startStack + 4 = stackEnd (m.pg.base + i))
    (kept : ∀ a, a ≠ (stored.table.pcb (some pcb)).startStack → stored.words a = m.words a)
    (pages : stored.copyMm nullIndex fuel pcb = .ok copied)
    (thread : copied.copyThread symbols pcb offset frame = .ok after) :
    SameOthers stored after pcb ∧
      (after.thread pcb).frame + sizeofIdtframe + 4 = stackEnd (m.pg.base + i) ∧
      after.words.frame (after.thread pcb).frame =
        copiedFrame (after.table.pcb (some pcb)).startStack offset (m.words.frame frame) ∧
      ∀ a, ¬ OnPage (m.pg.base + (i + 1)) a → after.words a = m.words a := by
  obtain ⟨address, below⟩ := stackEnd_eq room
  obtain ⟨first, words⟩ := copyMm_done pages
  generalize startStack : (stored.table.pcb (some pcb)).startStack = top at stack kept
  have same : (copied.table.pcb (some pcb)).startStack = top := by rw [first.table, startStack]
  have placed : (top + 2 ^ 32 - sizeofIdtframe) % 2 ^ 32 = top - sizeofIdtframe := by
    simp only [sizeofIdtframe, pageSize, vertualMem] at *
    omega
  have above : sizeofIdtframe ≤ top := by
    simp only [sizeofIdtframe, pageSize, vertualMem] at *
    omega
  obtain ⟨second, pointer, registers, others⟩ := copyThread_done thread same placed
  -- Everything that is written lies in the second page of the stack.
  have untouched : ∀ a, ¬ OnPage (m.pg.base + (i + 1)) a → stored.words a = m.words a ∧
      (a < top - sizeofIdtframe ∨ top - sizeofIdtframe + sizeofIdtframe ≤ a) := by
    intro a elsewhere
    have apart : a < top - sizeofIdtframe ∨ top < a := by
      by_contra inside
      apply elsewhere
      simp only [OnPage, Paging.pgToAddrLa, sizeofIdtframe, pageSize, vertualMem] at *
      omega
    refine ⟨kept a (by omega), by omega⟩
  refine ⟨⟨second.table.trans first.table, second.current.trans first.current, ?_⟩, ?_, ?_, ?_⟩
  · intro p other
    rw [second.thread p other, first.thread p other]
  · rw [pointer]
    omega
  · have read : stored.words.frame frame = m.words.frame frame := by
      funext r
      exact (untouched _ (outside r)).1
    rw [pointer, registers, second.table, same, words, read]
  · intro a elsewhere
    rw [others a (untouched a elsewhere).2, words]
    exact (untouched a elsewhere).1

/-! ## The ways in which a fork returns -/

/-- The machine when the new process has its PCB and its stack. -/
def begun (symbols : Symbols) (before : Machine) (pg : Paging) (heap : Heap) (pcb page : Nat)
    (offset : BitVec 32) : Machine :=
  let table := (before.table.doFork (some before.current) (some pcb) (some (Paging.pgToAddrLa page))).2
  ({ before with pg, heap, table }.createThread symbols pcb).storeExitProc symbols pcb offset

theorem begun_done {pg : Paging} {heap : Heap} {page : Nat} :
    (begun symbols before pg heap pcb page offset).toResources = { pg, heap, table :=
        (before.table.doFork (some before.current) (some pcb) (some (Paging.pgToAddrLa page))).2 } ∧
      (begun symbols before pg heap pcb page offset).current = before.current ∧
      ∀ a, a ≠ ((begun symbols before pg heap pcb page offset).table.pcb (some pcb)).startStack →
        (begun symbols before pg heap pcb page offset).words a = before.words a := by
  unfold begun storeExitProc
  split
  · exact ⟨rfl, rfl, fun a other => Function.update_of_ne other _ _⟩
  · exact ⟨rfl, rfl, fun _ _ => rfl⟩

theorem doFork_noStack {table : ProcTable Nat} {current : Option Nat} :
    (table.doFork current (some pcb) none).1 = -1 := by
  simp only [ProcTable.doFork, ProcTable.setKthreadStack, Option.map_none]
  split
  · rfl
  · rfl

/-- How `do_fork` has come to its result. -/
inductive Returns (symbols : Symbols) (nullIndex fuel : Nat) (before : Machine) (offset : BitVec 32)
    (frame : Nat) : Int → Machine → Prop where
  | full (full : before.table.procNum > maxProcess) :
      Returns symbols nullIndex fuel before offset frame (-1) before
  | noPcb {pg : Paging} {heap : Heap} (notFull : ¬ before.table.procNum > maxProcess)
      (called : before.pg.malloc nullIndex fuel before.heap pcbSize = .ok (pg, heap, 0)) :
      Returns symbols nullIndex fuel before offset frame (-1) { before with pg, heap }
  | noStack {pg last : Paging} {heap : Heap} {pcb : Nat} (notFull : ¬ before.table.procNum > maxProcess)
      (called : before.pg.malloc nullIndex fuel before.heap pcbSize = .ok (pg, heap, pcb))
      (set : pcb ≠ 0) (asked : pg.allocPage kthreadStackPage = .ok (none, last)) :
      Returns symbols nullIndex fuel before offset frame (-1) (createThread symbols { before with
        pg := last
        heap := heap.free pcb
        table := (before.table.doFork (some before.current) (some pcb) none).2 } pcb)
  | noPid {pg last freed : Paging} {heap : Heap} {pcb page : Nat}
      (notFull : ¬ before.table.procNum > maxProcess)
      (called : before.pg.malloc nullIndex fuel before.heap pcbSize = .ok (pg, heap, pcb))
      (set : pcb ≠ 0) (asked : pg.allocPage kthreadStackPage = .ok (some page, last))
      (refused : (before.table.doFork (some before.current) (some pcb)
        (some (Paging.pgToAddrLa page))).1 = -1)
      (given : last.freePage (last.laAddrToPg ((before.table.doFork (some before.current) (some pcb)
        (some (Paging.pgToAddrLa page))).2.pcb (some pcb)).startStack) kthreadStackPage = .ok freed) :
      Returns symbols nullIndex fuel before offset frame (-1)
        { begun symbols before last heap pcb page offset with pg := freed, heap := heap.free pcb }
  | forked {pg last : Paging} {heap : Heap} {pcb page : Nat} {copied after : Machine}
      (called : before.pg.malloc nullIndex fuel before.heap pcbSize = .ok (pg, heap, pcb))
      (asked : pg.allocPage kthreadStackPage = .ok (some page, last))
      (created : (before.table.doFork (some before.current) (some pcb)
        (some (Paging.pgToAddrLa page))).1 ≠ -1)
      (pages : (begun symbols before last heap pcb page offset).copyMm nullIndex fuel pcb = .ok copied)
      (thread : copied.copyThread symbols pcb offset frame = .ok after) :
      Returns symbols nullIndex fuel before offset frame
        (before.table.doFork (some before.current) (some pcb) (some (Paging.pgToAddrLa page))).1 after

theorem doFork_returns (done : before.doFork symbols nullIndex fuel offset frame = .ok (pid, after)) :
    Returns symbols nullIndex fuel before offset frame pid after := by
  unfold doFork at done
  by_cases full : before.table.procNum > maxProcess
  · rw [if_pos full] at done
    cases done
    exact .full full
  rw [if_neg full] at done
  obtain ⟨⟨pg, heap, pcb⟩, called, done⟩ := ok_of_bind done
  by_cases null : pcb = 0
  · subst null
    cases done
    exact .noPcb full called
  simp only [if_neg null] at done
  obtain ⟨⟨stack, last⟩, asked, done⟩ := ok_of_bind done
  cases stack with
  | none =>
      cases done
      exact .noStack full called null asked
  | some page =>
      simp only [Option.map_some] at done
      split at done
      · rename_i refused
        obtain ⟨freed, given, ended⟩ := ok_of_bind done
        cases ended
        have freeing : (begun symbols before last heap pcb page offset).pg.freePage
            ((begun symbols before last heap pcb page offset).pg.laAddrToPg
              ((begun symbols before last heap pcb page offset).table.pcb (some pcb)).startStack)
            kthreadStackPage = .ok freed := given
        rw [begun_done.1] at freeing
        exact .noPid full called null asked refused freeing
      · rename_i created
        obtain ⟨copied, pages, done⟩ := ok_of_bind done
        obtain ⟨copy, thread, ended⟩ := ok_of_bind done
        cases ended
        exact .forked called asked created pages thread

/-- A call of `do_fork` that returns has made no process, or the one and its frame. -/
theorem doFork_forked (wellFormed : before.WellFormed free fifo chunks)
    (held : ∀ p, p ∈ free ∨ p ∈ fifo → ∀ r, ¬ OnPage (before.pg.base + p) (Words.slot frame r))
    (done : before.doFork symbols nullIndex fuel offset frame = .ok (pid, after)) :
    after.table.allocated = before.table.allocated ∨
      ∃ pcb i, before.table.allocated pcb = false ∧
        Forked before after free fifo offset frame pid pcb i := by
  have fresh : ∀ {pg heap pcb}, before.pg.malloc nullIndex fuel before.heap pcbSize = .ok (pg, heap, pcb) →
      ∀ p, some pcb = some p → before.table.allocated p = false := by
    rintro pg heap pcb called p ⟨⟩
    obtain ⟨listed, queue, extra, -, -, -, undoes, -⟩ := Resources.malloc_source wellFormed called
    exact undoes.fresh
  cases doFork_returns done with
  | full => exact .inl rfl
  | noPcb => exact .inl rfl
  | noStack notFull called =>
      left
      rcases @ProcTable.doFork_cases _ _ before.table (some before.current) _ none (fresh called) with
        ⟨-, untouched⟩ | ⟨-, -, -, -, -, -, -, created⟩
      · exact untouched.allocated
      · exact absurd doFork_noStack created
  | @noPid pg last freed heap pcb page notFull called set asked refused given =>
      left
      rcases @ProcTable.doFork_cases _ _ before.table (some before.current) _
        (some (Paging.pgToAddrLa page)) (fresh called) with
        ⟨-, untouched⟩ | ⟨-, -, -, -, -, -, -, created⟩
      · show (begun symbols before last heap pcb page offset).table.allocated = _
        rw [begun_done.1]
        exact untouched.allocated
      · exact absurd refused created
  | @forked pg last heap pcb page copied _ called asked created pages thread =>
      right
      obtain ⟨listed, queue, extra, base, count, queues, undoes, source⟩ :=
        Resources.malloc_source wellFormed called
      rcases @ProcTable.doFork_cases _ _ before.table (some before.current) _
        (some (Paging.pgToAddrLa page)) (fresh called) with
        ⟨failed, -⟩ | ⟨other, k, j, numbered, ⟨⟩, details, result, -⟩
      · exact absurd failed created
      rcases Resources.allocStack_cases queues asked with
          ⟨⟨⟩, -⟩ | ⟨i, rest, rfl, -, ⟨⟩, -, -, -⟩
      have second : i + 1 ∈ i :: (i + 1) :: rest := by simp
      have bound := queues.sound.bounded _ second
      have room : before.pg.base + i + 2 < 2 ^ 18 := by
        have pool := wellFormed.room
        omega
      have page := source_pages source second
      obtain ⟨stored, running, kept⟩ := @begun_done symbols before pcb offset last heap (pg.base + i)
      have stack : ((begun symbols before last heap pcb (pg.base + i) offset).table.pcb
          (some pcb)).startStack + 4 = stackEnd (before.pg.base + i) := by
        rw [stored, (ProcTable.doFork_stack created).1, base]
        exact startStack_eq room
      obtain ⟨same, placed, registers, words⟩ :=
        forked_of_copies (held _ page) room stack kept pages thread
      refine ⟨pcb, i, undoes.fresh, same.current.trans running, ?_, ?_, page, room, ?_, placed,
        registers, words⟩
      · rw [same.table, stored, result]
        exact details.allocated
      · rw [same.table, stored]
        exact ProcTable.doFork_pid created
      · rw [same.table]
        exact stack

theorem Forked.onPage {frame : Nat} (forked : Forked before after free fifo offset frame pid pcb i)
    (r : Register) : OnPage (before.pg.base + (i + 1)) (Words.slot (after.thread pcb).frame r) := by
  have placed := forked.placed
  have size := r.ctorIdx_lt
  have room := forked.room
  rw [(stackEnd_eq room).1] at placed
  simp only [OnPage, Words.slot, Paging.pgToAddrLa, sizeofIdtframe, pageSize, vertualMem] at *
  omega

/-- Both frames, when the result of the call is stored in that of the parent. -/
theorem Forked.frames {word : BitVec 32}
    (forked : Forked before after free fifo offset frame pid pcb i)
    (held : ∀ r, ¬ OnPage (before.pg.base + (i + 1)) (Words.slot frame r)) :
    (after.words.setRegister frame .eax word).frame (after.thread pcb).frame =
        copiedFrame (after.table.pcb (some pcb)).startStack offset (before.words.frame frame) ∧
      (after.words.setRegister frame .eax word).frame frame =
        Function.update (before.words.frame frame) .eax word := by
  constructor
  · rw [Words.frame_setRegister_of_apart, forked.registers]
    intro s same
    exact held .eax (same ▸ forked.onPage s)
  · rw [Words.frame_setRegister]
    have read : after.words.frame frame = before.words.frame frame := by
      funext r
      exact forked.words _ (held r)
    rw [read]

/-- A fork that fails is that of `Resources`. -/
theorem doFork_failed_resources
    (failed : before.doFork symbols nullIndex fuel offset frame = .ok (-1, after)) :
    before.toResources.doFork nullIndex fuel (some before.current) = .ok (-1, after.toResources) := by
  generalize code : (-1 : Int) = pid at failed
  unfold Resources.doFork
  cases doFork_returns failed with
  | full full => rw [if_pos full]
  | noPcb notFull called =>
      rw [if_neg notFull, called]
      rfl
  | noStack notFull called set asked =>
      rw [if_neg notFull, called]
      simp only [Bind.bind, Except.bind, if_neg set, asked, Option.map_none]
      rw [if_neg (not_not.mpr doFork_noStack)]
      rfl
  | noPid notFull called set asked refused given =>
      rw [if_neg notFull, called]
      simp only [Bind.bind, Except.bind, if_neg set, asked, Option.map_some]
      rw [if_neg (not_not.mpr refused), given, begun_done.1]
  | forked called asked created => exact absurd code.symm created

/-- The child goes on as the parent does: its stack pointer is as far below the end of its stack as
the parent's is below the end of the two pages from `user` on, and it sees 0 where the parent sees
the pid of the child. -/
structure Duplicated (before after : Machine) (frame user child : Nat) : Prop where
  registers : ∀ r, r ≠ .eax → r ≠ .esp → r ≠ .eflags →
    after.words.frame (after.thread child).frame r = before.words.frame frame r
  eax : after.words.frame (after.thread child).frame .eax = 0
  esp : (after.words.frame (after.thread child).frame .esp).toNat + stackEnd user =
    (before.words.frame frame .esp).toNat + ((after.table.pcb (some child)).startStack + 4)
  eflags : after.words.frame (after.thread child).frame .eflags =
    before.words.frame frame .eflags ||| 0x200
  parent : ∀ r ≠ .eax, after.words.frame frame r = before.words.frame frame r
  pid : after.words.frame frame .eax = BitVec.ofInt 32 (after.table.pcb (some child)).pid

theorem systemIntr_fork {others : BitVec 32 → Handler} (called : before.words.frame frame .edx = 2)
    (done : systemIntr (systemCall symbols nullIndex fuel others) before frame = .ok after) :
    ∃ pid m, (before.setFrame frame).doFork symbols nullIndex fuel (before.words.frame frame .esp)
        frame = .ok (pid, m) ∧
      after = setFrame { m with words := m.words.setRegister frame .eax (BitVec.ofInt 32 pid) }
        (before.thread before.current).frame := by
  simp only [systemIntr, called, systemCall, Function.update_self] at done
  obtain ⟨⟨pid, m⟩, forks, ended⟩ := ok_of_bind done
  refine ⟨pid, m, ?_, (Except.ok.inj ended).symm⟩
  simpa [sysFork, setFrame] using forks

/-- The stack pointer of the child is as far up in its page as that of the parent. -/
theorem copiedFrame_esp {startStack : Nat} {offset : BitVec 32} {saved : IdtFrame}
    (user : offset ≠ 0) (low : pageSize ≤ startStack) (high : startStack + 4 < 2 ^ 32) :
    (copiedFrame startStack offset saved .esp).toNat + pageSize =
      startStack + 4 + offset.toNat % pageSize := by
  have word := offset.isLt
  simp only [copiedFrame, Function.update_of_ne (show Register.esp ≠ .eflags by decide),
    Function.update_self, if_pos user, roundUp, pageSize] at *
  have four : (4 : BitVec 32).toNat = 4 := rfl
  simp only [BitVec.toNat_sub, BitVec.toNat_add, BitVec.toNat_ofNat, four]
  omega

variable {others : BitVec 32 → Handler} {user child : Nat}

theorem copiedFrame_other {startStack : Nat} {saved : IdtFrame} {r : Register} (notEsp : r ≠ .esp)
    (notEflags : r ≠ .eflags) : copiedFrame startStack offset saved r = saved r := by
  rw [copiedFrame, Function.update_of_ne notEflags, Function.update_of_ne notEsp]

theorem copiedFrame_eflags {startStack : Nat} {saved : IdtFrame} :
    copiedFrame startStack offset saved .eflags = saved .eflags ||| 0x200 :=
  Function.update_self _ _ _

/-- The distance to the end of the page is that to the end of the stack in the upper page only. -/
theorem esp_moved_iff {startStack page : Nat} {saved : IdtFrame}
    (stack : startStack + 4 = stackEnd page) (pages : page + 2 < 2 ^ 18) (room : user + 2 < 2 ^ 18)
    (inside : Paging.pgToAddrLa user ≤ (saved .esp).toNat ∧ (saved .esp).toNat ≤ stackEnd user) :
    (copiedFrame startStack (saved .esp) saved .esp).toNat + stackEnd user =
        (saved .esp).toNat + (startStack + 4) ↔
      stackEnd user - pageSize ≤ (saved .esp).toNat ∧ (saved .esp).toNat < stackEnd user := by
  obtain ⟨top, below⟩ := stackEnd_eq pages
  obtain ⟨own, ownBelow⟩ := stackEnd_eq room
  have start : Paging.pgToAddrLa user + 2 * pageSize = stackEnd user := by
    simp only [stackEnd, pageSize, kthreadStackPage]
  have nonzero : saved .esp ≠ 0 := by
    intro zero
    rw [zero] at inside
    have none : (0 : BitVec 32).toNat = 0 := rfl
    simp only [pageSize, vertualMem] at *
    omega
  have moved := @copiedFrame_esp startStack (saved .esp) saved nonzero
    (by simp only [pageSize, vertualMem] at *; omega) (by omega)
  simp only [pageSize, vertualMem] at *
  omega

theorem duplicated_iff {startStack page : Nat}
    (copy : after.words.frame (after.thread child).frame =
      copiedFrame startStack (before.words.frame frame .esp) (before.words.frame frame))
    (own : after.words.frame frame = Function.update (before.words.frame frame) .eax
      (BitVec.ofInt 32 (after.table.pcb (some child)).pid))
    (startsAt : (after.table.pcb (some child)).startStack = startStack)
    (stack : startStack + 4 = stackEnd page) (pages : page + 2 < 2 ^ 18) (room : user + 2 < 2 ^ 18)
    (inside : Paging.pgToAddrLa user ≤ (before.words.frame frame .esp).toNat ∧
      (before.words.frame frame .esp).toNat ≤ stackEnd user) :
    Duplicated before after frame user child ↔
      before.words.frame frame .eax = 0 ∧
        stackEnd user - pageSize ≤ (before.words.frame frame .esp).toNat ∧
        (before.words.frame frame .esp).toNat < stackEnd user := by
  have moved := esp_moved_iff stack pages room inside
  constructor
  · intro duplicated
    have eax := duplicated.eax
    have esp := duplicated.esp
    rw [copy, copiedFrame_other (by decide) (by decide)] at eax
    rw [copy, startsAt] at esp
    exact ⟨eax, moved.mp esp⟩
  · rintro ⟨zero, upper⟩
    exact {
      registers := by
        intro r notEax notEsp notEflags
        rw [copy, copiedFrame_other notEsp notEflags]
      eax := by rw [copy, copiedFrame_other (by decide) (by decide), zero]
      esp := by
        rw [copy, startsAt]
        exact moved.mpr upper
      eflags := by rw [copy, copiedFrame_eflags]
      parent := by
        intro r notEax
        rw [own, Function.update_of_ne notEax]
      pid := by rw [own, Function.update_self] }

/-- Exactly then the child goes on as the parent does: it is the trap frame in which `eax` is 0
already, and the stack pointer is in the upper of the two pages. -/
theorem fork_duplicates_iff (wellFormed : before.WellFormed free fifo chunks)
    (running : before.table.allocated before.current = true)
    (held : ∀ p, p ∈ free ∨ p ∈ fifo → ∀ r, ¬ OnPage (before.pg.base + p) (Words.slot frame r))
    (called : before.words.frame frame .edx = 2) (room : user + 2 < 2 ^ 18)
    (inside : Paging.pgToAddrLa user ≤ (before.words.frame frame .esp).toNat ∧
      (before.words.frame frame .esp).toNat ≤ stackEnd user)
    (done : systemIntr (systemCall symbols nullIndex fuel others) before frame = .ok after)
    (new : before.table.allocated child = false) (created : after.table.allocated child = true) :
    Duplicated before after frame user child ↔
      before.words.frame frame .eax = 0 ∧
        stackEnd user - pageSize ≤ (before.words.frame frame .esp).toNat ∧
        (before.words.frame frame .esp).toNat < stackEnd user := by
  obtain ⟨pid, m, forks, rfl⟩ := systemIntr_fork called done
  rcases @doFork_forked symbols nullIndex fuel m (before.setFrame frame) frame _ pid free fifo chunks
      wellFormed held forks with same | ⟨pcb, i, fresh, forked⟩
  · have old : before.table.allocated child = true := by
      rw [← created]
      exact congrFun same.symm child
    rw [new] at old
    cases old
  obtain rfl : child = pcb := by
    by_contra other
    have old : m.table.allocated child = true := created
    rw [forked.allocated, Function.update_of_ne other] at old
    exact absurd (old.symm.trans new) (by decide)
  have apart : child ≠ m.current := by
    rw [forked.current]
    intro same
    rw [same] at new
    exact absurd (running.symm.trans new) (by decide)
  have returned := forked.pid
  subst returned
  obtain ⟨copy, own⟩ := @Forked.frames m (before.setFrame frame) child frame i _ _ free fifo
    (BitVec.ofInt 32 (m.table.pcb (some child)).pid) forked (held _ forked.page)
  have thread : (setFrame { m with
      words := m.words.setRegister frame .eax (BitVec.ofInt 32 (m.table.pcb (some child)).pid) }
      (before.thread before.current).frame).thread child = m.thread child :=
    Function.update_of_ne apart _ _
  refine duplicated_iff ?_ ?_ rfl forked.stack forked.room room inside
  · rw [thread]
    exact copy
  · exact own

end Fork

/-- The PCBs of `idle` and of the process that it has forked. -/
def userChunks : List Chunk :=
  [{ addr := 0xC0010000, allocated := true, size := 92 },
    { addr := 0xC0010068, allocated := true, size := 92 },
    { addr := 0xC00100D0, allocated := false, size := 3876 }]

/-- A user process with the pid 1 has trapped with these registers.  Its kernel stack begins at the
page 12 and its user stack at the page 14. -/
def trapped (saved : IdtFrame) : Machine where
  pg := { Paging.bootPages with area := Resources.threeLeft }
  heap := (HeapState.emptyHeap.heap.extend pcbSize (chunkSize + pcbSize) 0xC0010000).split 0xC0010068
    (chunkSize + pcbSize)
  table := ((ProcTable.blank.procInit 0xC001000C 0).doFork (some 0xC001000C) (some 0xC0010074)
    (some (Paging.pgToAddrLa 12))).2
  words := Words.setFrame (fun _ => 0) 0xC000DFBC saved
  thread _ :=
    { mm := some Paging.bootMm, backupPde := pageSize, contextEip := 0, contextEsp := 0, frame := 0 }
  current := 0xC0010074

theorem trapped_represents {saved : IdtFrame} : (trapped saved).heap.Represents userChunks := by
  have chunks := Resources.idleOnly_represents
  exact @Heap.split_represents _ [{ addr := 0xC0010000, allocated := true, size := 92 }] []
    { addr := 0xC0010068, allocated := false, size := 3980 } 92 chunks ⟨by decide, by decide⟩ (by decide)
    (by decide)

theorem trapped_wellFormed {saved : IdtFrame} : (trapped saved).WellFormed [1, 2, 3] [] userChunks where
  queues := Resources.threeLeft_queues
  room := show 16 + 4 < 2 ^ 18 by decide
  represents := trapped_represents
  apart := by
    simp only [userChunks, Apart, List.pairwise_cons, List.mem_cons, forall_eq_or_imp, List.not_mem_nil,
      false_implies, implies_true, List.Pairwise.nil, and_true, Chunk.Holds, Between, Chunk.stop,
      chunkSize]
    refine ⟨⟨?_, ?_⟩, ?_⟩ <;> intro byte first second <;> omega
  coalesced := by
    refine List.isChain_cons_cons.mpr ⟨?_, List.isChain_cons_cons.mpr ⟨?_, by simp⟩⟩
    · rintro ⟨isFree, -⟩
      cases isFree
    · rintro ⟨isFree, -⟩
      cases isFree
  backed byte covered := by
    refine ⟨0, show 0 < 4 by decide, by decide, ?_⟩
    have first : Paging.pgToAddrLa (16 + 0) = 0xC0010000 := by decide
    show Paging.pgToAddrLa (16 + 0) ≤ byte ∧ byte < Paging.pgToAddrLa (16 + 0) + pageSize
    rw [first]
    simp only [Covered, userChunks, List.mem_cons, List.not_mem_nil, or_false, exists_eq_or_imp,
      exists_eq_left, Chunk.Holds, Between, Chunk.stop, chunkSize] at covered
    simp only [pageSize]
    omega
  pcbs p live := by
    have booted := @ProcTable.Accounted.booted _ _ ProcTable.blank 0xC001000C 0 ⟨fun _ => rfl, rfl, rfl⟩
    have forks := @ProcTable.doFork_cases _ _ (ProcTable.blank.procInit 0xC001000C 0) (some 0xC001000C)
      (some 0xC0010074) (some (Paging.pgToAddrLa 12)) (by rintro pcb ⟨⟩; decide +kernel)
    rcases forks with ⟨failed, -⟩ | ⟨other, k, j, numbered, ⟨⟩, details, result, -⟩
    · exact absurd failed (by decide +kernel)
    · have used : numbered.allocated p = true := by
        have same : (trapped saved).table = numbered.enlist 0xC0010074 (some 0xC001000C) := result
        rw [same] at live
        exact live
      rw [details.allocated] at used
      by_cases own : p = 0xC0010074
      · exact ⟨{ addr := 0xC0010068, allocated := true, size := 92 }, by simp [userChunks], rfl, own⟩
      · rw [Function.update_of_ne own] at used
        have idle : p = 0xC001000C := by simpa using (booted.allocated p).mp used
        exact ⟨{ addr := 0xC0010000, allocated := true, size := 92 }, by simp [userChunks], rfl, idle⟩

theorem trapped_held {saved : IdtFrame} (p : Nat) (member : p ∈ [1, 2, 3] ∨ p ∈ ([] : List Nat))
    (r : Register) : ¬ OnPage ((trapped saved).pg.base + p) (Words.slot 0xC000DFBC r) := by
  have size := r.ctorIdx_lt
  have base : (trapped saved).pg.base = 16 := rfl
  rw [base]
  simp only [List.mem_cons, List.not_mem_nil, or_false] at member
  simp only [OnPage, Words.slot, Paging.pgToAddrLa, sizeofIdtframe, pageSize, vertualMem] at *
  omega

/-- The registers with which `fork` traps. -/
def forkCall (eax esp : BitVec 32) : IdtFrame
  | .eax => eax
  | .edx => 2
  | .esp => esp
  | .eflags => 0x3202
  | .cs => 0x1B
  | .ss => 0x23
  | .myEax => 0x23
  | _ => 0

def kernelSymbols : Symbols :=
  { pd := pageSize, exitProc := 0xC0100000, contextToIntr := 0xC0100100 }

/-- The interrupt of the process `trapped`, with no other system call than `sys_fork`. -/
def trap (saved : IdtFrame) : Except Halt Machine :=
  systemIntr (systemCall kernelSymbols Paging.nullBelow 5 fun _ _ _ => .error .unfinished) (trapped saved)
    0xC000DFBC

/-- A process that forks with `eax` at 0, 256 bytes below the end of its stack. -/
theorem fork_duplicates_iff_zero : ∃ after, trap (forkCall 0 0xC000FF00) = .ok after ∧
    Duplicated (trapped (forkCall 0 0xC000FF00)) after 0xC000DFBC 14 0xC00100DC := by
  have runs : (trap (forkCall 0 0xC000FF00)).toOption.any
      (fun after => after.table.allocated 0xC00100DC) = true := by
    decide +kernel
  obtain ⟨after, returned, created⟩ := (Option.any_eq_true _ _).mp runs
  have done := ok_of_toOption returned
  have saved : (trapped (forkCall 0 0xC000FF00)).words.frame 0xC000DFBC = forkCall 0 0xC000FF00 :=
    Words.frame_setFrame
  refine ⟨after, done, (fork_duplicates_iff trapped_wellFormed (by decide +kernel)
    trapped_held ?_ (show 14 + 2 < 2 ^ 18 by decide) ?_ done (by decide +kernel) created).mpr ?_⟩
  · rw [saved]
    rfl
  · rw [saved]
    decide
  · rw [saved]
    decide

/-- With `eax` at 1, which `getpid` has just returned, the child sees 1 too. -/
theorem child_sees_old_eax : ∃ after, trap (forkCall 1 0xC000FF00) = .ok after ∧
    (trapped (forkCall 1 0xC000FF00)).table.allocated 0xC00100DC = false ∧
    after.table.allocated 0xC00100DC = true ∧
    after.words.frame (after.thread 0xC00100DC).frame .eax = 1 ∧
    ¬ Duplicated (trapped (forkCall 1 0xC000FF00)) after 0xC000DFBC 14 0xC00100DC := by
  have runs : (trap (forkCall 1 0xC000FF00)).toOption.any (fun after =>
      after.table.allocated 0xC00100DC ∧
        after.words.frame (after.thread 0xC00100DC).frame .eax = 1) = true := by
    decide +kernel
  obtain ⟨after, returned, facts⟩ := (Option.any_eq_true _ _).mp runs
  obtain ⟨created, one⟩ := of_decide_eq_true facts
  refine ⟨after, ok_of_toOption returned, by decide +kernel, created, one, ?_⟩
  intro duplicated
  have zero := duplicated.eax
  rw [one] at zero
  exact absurd zero (by decide)

end Machine

end WindOs.Proc
