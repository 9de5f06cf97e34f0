import WindOs.Proc.RunThread
import WindOs.Idt.Trap

namespace WindOs.Proc

open X86 Idt Data

/-! # The first run of a process

A new process has never called `switch_to`.  Its context leads to `context_to_intr`, with the stack
pointer at the frame that `copy_thread` has made, so that it begins like a process that comes back
from an interrupt.
-/

namespace Processes

section First

variable {cpu : Cpu} {entry last pcb ret p : Address} {labels : Labels} {s t : Processes} {cpl : Nat}
  {frame : IdtFrame} {address : Address}

/-- What `copy_thread` leaves of a process: its frame is in its stack, and its context leads there. -/
structure Fresh (labels : Labels) (s : Processes) (pcb frameAt : Address) (cpl : Nat)
    (frame : IdtFrame) : Prop where
  eip : (PcbAt.contextAt s.state.memory pcb).eip = labels.contextToIntr
  esp : (PcbAt.contextAt s.state.memory pcb).esp = frameAt
  holds : s.state.memory.Holds frameAt (onStack cpl frame)
  inside : ∀ x, (x - frameAt).toNat < 64 → (s.stack pcb).Contains x

/-- The processor is in the kernel. -/
structure InKernel (s : State) : Prop where
  cpl : s.cpl = 0
  regular : Flags.Regular s.eflags
  nested : Flags.isNested s.eflags = false

/-- However long a new process has waited, it begins with the registers of its frame. -/
theorem Parked.first_run (code : cpu.CodeAt entry switchTo last) (loaded : Loaded cpu labels)
    (fresh : Fresh labels s p address cpl frame) (parked : Parked s t p) (room : t.Room)
    (kernel : InKernel t.state) (back : Returnable cpu.descriptors cpl frame) :
    ∃ started count, t.runThread cpu entry p ret = some started ∧
      started.state.registers.esp = address ∧
      started.state.segments = t.state.segments ∧
      started.state.eflags = t.state.eflags ∧
      started.state.cr3 = PcbAt.backupPde s.state.memory p ∧
      started.state.esp0 = PcbAt.startStack s.state.memory p ∧
      cpu.run count started.state = some (returned started.state cpl frame) := by
  have done : t.runThread cpu entry p ret = some (t.switchedTo entry p ret) :=
    runThread_done code parked.layout parked.alive room parked.waiting
  obtain ⟨context, stack, pde, top⟩ := @parked.resumes entry ret _ _ _ room
  let started : Processes := t.switchedTo entry p ret
  have eip : started.state.eip = labels.contextToIntr :=
    (congrArg Context.eip context).trans fresh.eip
  have esp : started.state.registers.esp = address := (congrArg Context.esp context).trans fresh.esp
  have size : 4 * (onStack cpl frame).length ≤ 64 := by
    rw [length_onStack]
    split <;> omega
  have holds : started.state.Stack (onStack cpl frame) := by
    rw [State.Stack, esp]
    refine fresh.holds.congr (fun x inside => ?_) (by omega)
    rw [stack x (fresh.inside x (by omega)), fresh.esp]
    exact Memory.store_of_outside (by bv_omega)
  obtain ⟨b, jump⟩ := loaded.contextToIntr
  let jumped : State := { started.state with eip := labels.procAfter }
  have jumps : cpu.run 1 started.state = some jumped := by
    have found : cpu.instr started.state.eip = some (.jmp labels.procAfter, b) := by
      rw [eip]
      exact jump.last
    exact Cpu.run_one found rfl
  have here : jumped.eip = labels.procAfter := rfl
  have stacked : jumped.Stack (onStack cpl frame) := holds
  have inner : jumped.cpl = 0 := kernel.cpl
  have nested : Flags.isNested jumped.eflags = false := kernel.nested
  obtain ⟨count, run⟩ := procAfter_run loaded here stacked inner nested back
  exact ⟨started, _, done, esp, rfl, rfl, pde, top, Cpu.run_trans jumps run⟩

end First

end Processes

section Fork

variable {cpu : Cpu} {entry last ret : Address} {labels : Labels} {symbols : Symbols}
  {s t : Processes} {parent : State} {m after : Machine} {pcb frame vector : Nat}
  {offset : BitVec 32} {code : Word}

/-- The memory holds what `copy_thread` has written for a process. -/
structure Represents (labels : Labels) (symbols : Symbols) (s : Processes) (m : Machine)
    (pcb : Nat) : Prop where
  eip : (PcbAt.contextAt s.state.memory (BitVec.ofNat 32 pcb)).eip =
    BitVec.ofNat 32 (m.thread pcb).contextEip
  esp : (PcbAt.contextAt s.state.memory (BitVec.ofNat 32 pcb)).esp =
    BitVec.ofNat 32 (m.thread pcb).contextEsp
  words : ∀ r, s.state.memory.load (BitVec.ofNat 32 (Words.slot (m.thread pcb).frame r)) =
    m.words.frame (m.thread pcb).frame r
  contextToIntr : labels.contextToIntr = BitVec.ofNat 32 symbols.contextToIntr
  inside : ∀ x, (x - BitVec.ofNat 32 (m.thread pcb).frame).toNat < 64 →
    (s.stack (BitVec.ofNat 32 pcb)).Contains x

theorem copyThread_context (done : m.copyThread symbols pcb offset frame = .ok after) :
    (after.thread pcb).contextEip = symbols.contextToIntr ∧
      (after.thread pcb).contextEsp = (after.thread pcb).frame := by
  unfold Machine.copyThread at done
  obtain ⟨pg, -, ended⟩ := ok_of_bind done
  cases ended
  simp only [Function.update_self, and_self]

/-- The words of a frame are read one by one. -/
theorem frame_holds {memory : Memory} {address cpl : Nat} {saved : IdtFrame}
    (words : ∀ r, memory.load (BitVec.ofNat 32 (Words.slot address r)) = saved r) :
    memory.Holds (BitVec.ofNat 32 address) (onStack cpl saved) := by
  have place (r : Register) : BitVec.ofNat 32 (Words.slot address r) =
      BitVec.ofNat 32 address + BitVec.ofNat 32 (4 * r.ctorIdx) := by
    rw [Words.slot, BitVec.ofNat_add]
  simp only [place] at words
  have first (r : Register) (index : r.ctorIdx = 0) : memory.load (BitVec.ofNat 32 address) = saved r := by
    have here := words r
    rwa [index, Nat.mul_zero, BitVec.add_zero] at here
  have base : memory.Holds (BitVec.ofNat 32 address) (frameWords saved ++ outerWords saved) := by
    simp only [frameWords, outerWords, List.cons_append, List.nil_append, Memory.Holds,
      BitVec.ofNat_eq_ofNat, BitVec.add_assoc, BitVec.reduceAdd]
    exact ⟨first .myEax rfl, words .edi, words .esi, words .ebp, words .noUseEsp, words .ebx,
      words .edx, words .ecx, words .eax, words .intrNo, words .errorCode, words .eip, words .cs,
      words .eflags, words .esp, words .ss, trivial⟩
  rw [onStack]
  split
  · rw [List.append_nil]
    exact base.left
  · exact base

theorem Represents.fresh {cpl : Nat} (represents : Represents labels symbols s after pcb)
    (done : m.copyThread symbols pcb offset frame = .ok after) :
    s.Fresh labels (BitVec.ofNat 32 pcb) (BitVec.ofNat 32 (after.thread pcb).frame) cpl
      (after.words.frame (after.thread pcb).frame) := by
  obtain ⟨eip, esp⟩ := copyThread_context done
  refine { eip := ?_, esp := ?_, holds := frame_holds represents.words, inside := represents.inside }
  · rw [represents.eip, eip, represents.contextToIntr]
  · rw [represents.esp, esp]

/-- These registers are saved in a frame; the last two are only there when the privilege changes. -/
def Saved (parent : State) (vector : Nat) (code : Word) (saved : IdtFrame) : Prop :=
  ∀ r, (parent.cpl = 0 → r ≠ .esp ∧ r ≠ .ss) → saved r = frameOf parent vector code r

/-- Two registers are changed in the copy. -/
theorem Saved.copied {saved : IdtFrame} {startStack : Nat} {r : Register}
    (registers : Saved parent vector code saved) (first : r ≠ .eflags) (second : r ≠ .esp)
    (third : parent.cpl = 0 → r ≠ .ss) :
    Machine.copiedFrame startStack offset saved r = frameOf parent vector code r := by
  rw [Machine.copiedFrame, Function.update_of_ne first, Function.update_of_ne second]
  exact registers r fun inner => ⟨second, third inner⟩

theorem Saved.eflags {saved : IdtFrame} {startStack : Nat}
    (registers : Saved parent vector code saved) :
    Machine.copiedFrame startStack offset saved .eflags = parent.eflags ||| 0x200 := by
  rw [Machine.copiedFrame, Function.update_self, registers .eflags fun _ => ⟨by decide, by decide⟩]
  rfl

theorem Saved.returnable {descriptors : Descriptors} {saved : IdtFrame} {startStack : Nat}
    (registers : Saved parent vector code saved) (valid : Valid descriptors parent) :
    Returnable descriptors parent.cpl (Machine.copiedFrame startStack offset saved) := by
  have back : Returnable descriptors parent.cpl (frameOf parent vector code) := valid.returnable
  have cs : Machine.copiedFrame startStack offset saved .cs = frameOf parent vector code .cs :=
    registers.copied (by decide) (by decide) fun _ => by decide
  have myEax : Machine.copiedFrame startStack offset saved .myEax =
      frameOf parent vector code .myEax :=
    registers.copied (by decide) (by decide) fun _ => by decide
  refine { code := ?_, rpl := ?_, data := ?_, isProtected := ?_, outer := fun outer => ?_ }
  · rw [cs]
    exact back.code
  · rw [cs]
    exact back.rpl
  · rw [myEax]
    exact back.data
  · rw [registers.eflags]
    exact valid.regular.interrupts.isProtected
  · have ss : Machine.copiedFrame startStack offset saved .ss = frameOf parent vector code .ss :=
      registers.copied (by decide) (by decide) fun inner => absurd inner outer
    rw [ss]
    exact back.outer outer

/-- Where the stack pointer of a new process is. -/
def childEsp (cpl startStack frame : Nat) (offset : BitVec 32) : Word :=
  if cpl = 0 then BitVec.ofNat 32 frame + 56
  else Machine.copiedFrame startStack offset (fun _ => 0) .esp

/-- A process that is forked goes on where its parent was interrupted, with the registers that the
parent had there, on its own stack and with interrupts on; `es`, `fs` and `gs` are what `ds` was. -/
theorem fork_child_runs (switch : cpu.CodeAt entry switchTo last) (loaded : Loaded cpu labels)
    (valid : Valid cpu.descriptors parent)
    (saved : Saved parent vector code (m.words.frame frame))
    (forked : m.copyThread symbols pcb offset frame = .ok after)
    (represents : Represents labels symbols s after pcb)
    (waits : s.Parked s (BitVec.ofNat 32 pcb))
    (away : Relation.ReflTransGen (Processes.AwayStep cpu entry (BitVec.ofNat 32 pcb)) s t)
    (room : t.Room) (kernel : Processes.InKernel t.state) :
    ∃ started count child,
      t.runThread cpu entry (BitVec.ofNat 32 pcb) ret = some started ∧
      cpu.run count started.state = some child ∧
      child.eip = parent.eip ∧
      child.registers = { parent.registers with
        esp := childEsp parent.cpl (m.table.pcb (some pcb)).startStack (after.thread pcb).frame
          offset } ∧
      child.segments = { dataFromDs parent with
        ss := if parent.cpl = 0 then t.state.segments.ss else parent.segments.ss } ∧
      child.eflags = parent.eflags ||| 0x200 ∧
      child.cr3 = PcbAt.backupPde s.state.memory (BitVec.ofNat 32 pcb) ∧
      child.esp0 = PcbAt.startStack s.state.memory (BitVec.ofNat 32 pcb) := by
  obtain ⟨-, pointer, registers, -⟩ := Machine.copyThread_done forked rfl rfl
  rw [← pointer] at registers
  have fresh : s.Fresh labels (BitVec.ofNat 32 pcb) (BitVec.ofNat 32 (after.thread pcb).frame)
      parent.cpl (after.words.frame (after.thread pcb).frame) := represents.fresh forked
  rw [registers] at fresh
  obtain ⟨started, count, done, esp, segments, eflags, pde, top, run⟩ :=
    (waits.run switch away).first_run switch loaded fresh room kernel (saved.returnable valid)
  have kept (r : Register) (first : r ≠ .eflags) (second : r ≠ .esp) (third : r ≠ .ss) :
      Machine.copiedFrame (m.table.pcb (some pcb)).startStack offset (m.words.frame frame) r =
        frameOf parent vector code r := saved.copied first second fun _ => third
  refine ⟨started, count, _, done, run, ?_, ?_, ?_, ?_, pde, top⟩
  · exact kept .eip (by decide) (by decide) (by decide)
  · simp only [returned, kept .eax (by decide) (by decide) (by decide),
      kept .ecx (by decide) (by decide) (by decide), kept .edx (by decide) (by decide) (by decide),
      kept .ebx (by decide) (by decide) (by decide), kept .ebp (by decide) (by decide) (by decide),
      kept .esi (by decide) (by decide) (by decide), kept .edi (by decide) (by decide) (by decide),
      frameOf, childEsp, esp]
    rfl
  · have cs : ((parent.segments.cs.setWidth 32).setWidth 16 : Selector) = parent.segments.cs := by
      simp
    have ss : ((parent.segments.ss.setWidth 32).setWidth 16 : Selector) = parent.segments.ss := by
      simp
    have ds : ((lowHalf parent.registers.eax parent.segments.ds).setWidth 16 : Selector) =
        parent.segments.ds := setWidth_lowHalf
    simp only [returned, dataFromDs, kept .cs (by decide) (by decide) (by decide),
      kept .myEax (by decide) (by decide) (by decide), frameOf, cs, ds, segments]
    by_cases inner : parent.cpl = 0
    · simp only [inner, if_true]
    · have outer : Machine.copiedFrame (m.table.pcb (some pcb)).startStack offset
          (m.words.frame frame) .ss = frameOf parent vector code .ss :=
        saved.copied (by decide) (by decide) fun here => absurd here inner
      simp only [inner, if_false, outer, frameOf, ss]
  · simp only [returned, eflags, saved.eflags]
    exact kernel.regular.restore valid.regular.interrupts

end Fork

/-- The frame that `kernel_thread` passes to `do_fork`. -/
def kernelThreadFrame (threadEntry fn arg : Word) : IdtFrame
  | .cs => 0x08
  | .myEax | .ss => 0x10
  | .ebx => fn
  | .edx => arg
  | .eip => threadEntry
  | _ => 0

/-- `kernel_thread_entry` up to the call of the function; it begins like every function. -/
def threadCallOps : List Op := [.push .ebp, .movReg .esp .ebp, .push .edx]

/-- `kernel_thread_entry` is at `start`, and its function returns to `returns`. -/
structure ThreadEntry (cpu : Cpu) (start returns doExit : Address) : Prop where
  call : cpu.CodeAt start (threadCallOps.map .op ++ [.callReg .ebx]) returns
  exit : ∃ b, cpu.CodeAt returns ([Op.push .eax].map .op ++ [.call doExit]) b

section Thread

variable {cpu : Cpu} {entry last ret start returns doExit : Address} {labels : Labels}
  {symbols : Symbols} {s t : Processes} {u : State} {m after : Machine} {pcb frame : Nat}
  {fn arg : Word}

theorem threadEntry_call (threadEntry : ThreadEntry cpu start returns doExit)
    (here : u.eip = start) :
    ∃ count, cpu.run count u = some { u.pushAll [u.registers.ebp, u.registers.edx, returns] with
      registers := { (u.pushAll [u.registers.ebp, u.registers.edx, returns]).registers with
        ebp := u.registers.esp - 4 }
      eip := u.registers.ebx } := by
  obtain ⟨next, code, pushed⟩ := Cpu.run_block threadEntry.call here rfl
  exact ⟨_, Cpu.run_trans pushed (Cpu.run_one code.last rfl)⟩

theorem threadEntry_exit (threadEntry : ThreadEntry cpu start returns doExit)
    (here : u.eip = returns) :
    ∃ count exit, cpu.run count u = some exit ∧ exit.eip = doExit ∧
      ∃ again, exit.Stack [again, u.registers.eax] := by
  obtain ⟨b, code⟩ := threadEntry.exit
  obtain ⟨next, code, pushed⟩ := Cpu.run_block code here rfl
  refine ⟨_, _, Cpu.run_trans pushed (Cpu.run_one code.last rfl), rfl, b, ?_⟩
  have empty : u.Stack [] := trivial
  have one : (u.push u.registers.eax).Stack [u.registers.eax] := empty.push (by decide)
  have two : ((u.push u.registers.eax).push b).Stack [b, u.registers.eax] := one.push (by simp)
  exact two

theorem kernelThread_returnable {descriptors : Descriptors} {startStack : Nat}
    (kernel : KernelSegments descriptors) :
    Returnable descriptors 0 (Machine.copiedFrame startStack 0 (kernelThreadFrame start fn arg)) :=
  { code := kernel.code
    rpl := (by decide : Selector.rpl 8 = 0)
    data := usable_of_data kernel.data (Nat.le_refl 0) (by decide : Selector.rpl 16 ≤ 0)
    isProtected := (by decide : Flags.isProtected (0 ||| 0x200) = true)
    outer := fun outer => absurd rfl outer }

/-- A kernel thread calls its function with its argument on its own stack, with interrupts on and the
segments of the kernel, and what the function returns is passed to `do_exit`. -/
theorem kernel_thread_runs (switch : cpu.CodeAt entry switchTo last) (loaded : Loaded cpu labels)
    (segments : KernelSegments cpu.descriptors)
    (threadEntry : ThreadEntry cpu start returns doExit)
    (saved : m.words.frame frame = kernelThreadFrame start fn arg)
    (forked : m.copyThread symbols pcb 0 frame = .ok after)
    (represents : Represents labels symbols s after pcb)
    (waits : s.Parked s (BitVec.ofNat 32 pcb))
    (away : Relation.ReflTransGen (Processes.AwayStep cpu entry (BitVec.ofNat 32 pcb)) s t)
    (room : t.Room) (kernel : Processes.InKernel t.state) :
    ∃ started count called,
      t.runThread cpu entry (BitVec.ofNat 32 pcb) ret = some started ∧
      cpu.run count started.state = some called ∧
      called.eip = fn ∧ called.Stack [returns, arg] ∧ called.eflags = 0x202 ∧
      called.registers.esp = BitVec.ofNat 32 (after.thread pcb).frame + 44 ∧
      (∀ x, (x - called.registers.esp).toNat < 8 → (s.stack (BitVec.ofNat 32 pcb)).Contains x) ∧
      called.segments = { cs := 8, ss := t.state.segments.ss, ds := 16, es := 16, fs := 16, gs := 16 } ∧
      ∀ result : State, result.eip = returns → ∃ count exit, cpu.run count result = some exit ∧
        exit.eip = doExit ∧ ∃ again, exit.Stack [again, result.registers.eax] := by
  obtain ⟨-, pointer, registers, -⟩ := Machine.copyThread_done forked rfl rfl
  rw [saved] at registers
  rw [← pointer] at registers
  have fresh : s.Fresh labels (BitVec.ofNat 32 pcb) (BitVec.ofNat 32 (after.thread pcb).frame) 0
      (after.words.frame (after.thread pcb).frame) := represents.fresh forked
  rw [registers] at fresh
  obtain ⟨started, count, done, esp, same, eflags, -, -, run⟩ :=
    (waits.run switch away).first_run switch loaded fresh room kernel
      (kernelThread_returnable segments)
  let begun : State := returned started.state 0
    (Machine.copiedFrame (m.table.pcb (some pcb)).startStack 0 (kernelThreadFrame start fn arg))
  have flags : begun.eflags = 0x202 := by
    have frame : begun.eflags = Flags.restore 0 started.state.eflags (0 ||| 0x200) := rfl
    rw [frame, eflags, Flags.restore_zero, kernel.regular]
    decide
  have ss : begun.segments.ss = t.state.segments.ss := by
    rw [← same]
    rfl
  have here : begun.eip = start := rfl
  obtain ⟨calls, call⟩ := threadEntry_call threadEntry here
  have empty : begun.Stack [] := trivial
  have stack : (begun.pushAll [0, arg, returns]).Stack [returns, arg, 0] := empty.pushAll (by simp)
  have top : begun.registers.esp = BitVec.ofNat 32 (after.thread pcb).frame + 56 := by
    have popped : begun.registers.esp = started.state.registers.esp + 56 := rfl
    rw [popped, esp]
  have place : (begun.pushAll [begun.registers.ebp, begun.registers.edx, returns]).registers.esp =
      BitVec.ofNat 32 (after.thread pcb).frame + 44 := by
    simp only [State.pushAll_eq, top, List.length_cons, List.length_nil]
    bv_omega
  refine ⟨started, _, _, done, Cpu.run_trans run call, rfl, ?_, ?_, place, fun x inside => ?_, ?_,
    fun result here => threadEntry_exit threadEntry here⟩
  · exact ⟨stack.head, stack.tail.head, trivial⟩
  · simp only [State.pushAll_eq]
    exact flags
  · refine represents.inside x ?_
    have near : (x - (BitVec.ofNat 32 (after.thread pcb).frame + 44)).toNat < 8 := by
      rw [← place]
      exact inside
    bv_omega
  · simp only [State.pushAll_eq, ← ss]
    rfl

end Thread

/-- The caller of `do_fork` has passed the frame `saved`; the new process has its stack at `0x4000`. -/
def forking (saved : IdtFrame) : Machine :=
  let before := Machine.trapped saved
  { before with table := { before.table with
      pcb := fun p => { before.table.pcb p with startStack := 0x4FFC } } }

def placedSymbols : Symbols := { pd := 0x1000, exitProc := 0, contextToIntr := 0x8013 }

/-- The context of the new process and the address of its page directory. -/
def forkedPcb : Memory :=
  ((Memory.store (fun _ => 0) 0x1134 0x4FBC).store 0x1118 0x8013).store 0x1114 0x1000

/-- The memory with the frame of the new process. -/
def forkedMemory (offset : BitVec 32) (saved : IdtFrame) : Memory :=
  forkedPcb.storeAll 0x4FBC (onStack 3 (Machine.copiedFrame 0x4FFC offset saved))

section Forked

variable {offset : BitVec 32} {saved : IdtFrame}

theorem forkedMemory_outside {a : Address} (outside : a.toNat + 4 ≤ 0x4FBC) :
    (forkedMemory offset saved).load a = forkedPcb.load a := by
  refine Memory.load_congr fun x inside => Memory.storeAll_of_outside ?_ ?_
  · rw [length_onStack]
    simp only [Nat.reduceEqDiff, if_false]
    bv_omega
  · rw [length_onStack]
    decide

theorem forkedMemory_context :
    (PcbAt.contextAt (forkedMemory offset saved) 0x1100).eip = 0x8013 ∧
      (PcbAt.contextAt (forkedMemory offset saved) 0x1100).esp = 0x4FBC := by
  constructor
  · refine (forkedMemory_outside (by decide)).trans ?_
    refine (Memory.load_store_of_apart (by decide)).trans ?_
    exact Memory.load_store_self
  · refine (forkedMemory_outside (by decide)).trans ?_
    refine (Memory.load_store_of_apart (by decide)).trans ?_
    refine (Memory.load_store_of_apart (by decide)).trans ?_
    exact Memory.load_store_self

theorem forkedMemory_words (r : Register) :
    (forkedMemory offset saved).load (BitVec.ofNat 32 (Words.slot 0x4FBC r)) =
      Machine.copiedFrame 0x4FFC offset saved r := by
  have holds : (forkedMemory offset saved).Holds 0x4FBC
      (onStack 3 (Machine.copiedFrame 0x4FFC offset saved)) :=
    Memory.storeAll_holds (by rw [length_onStack]; decide)
  exact holds_frame holds r

/-- The new process waits. -/
def forkedProcesses (offset : BitVec 32) (saved : IdtFrame) : Processes :=
  Processes.twoProcesses (forkedMemory offset saved)

/-- Everything that a first run asks of the memory. -/
theorem forking_done {after : Machine}
    (done : (forking saved).copyThread placedSymbols 0x1100 offset 0xC000DFBC = .ok after) :
    (forking saved).words.frame 0xC000DFBC = saved ∧
      Represents placedLabels placedSymbols (forkedProcesses offset saved) after 0x1100 ∧
      (forkedProcesses offset saved).Parked (forkedProcesses offset saved) 0x1100 := by
  obtain ⟨eip, esp⟩ := @forkedMemory_context offset saved
  have words : (forking saved).words.frame 0xC000DFBC = saved := Words.frame_setFrame
  have place : (0x4FFC + 2 ^ 32 - sizeofIdtframe) % 2 ^ 32 = 0x4FBC := by decide
  obtain ⟨-, pointer, registers, -⟩ := Machine.copyThread_done done rfl place
  obtain ⟨first, second⟩ := copyThread_context done
  have layout : (forkedProcesses offset saved).Layout :=
    Processes.twoProcesses_layout (by rw [esp]; decide) (by rw [esp]; decide)
  refine ⟨words,
    { eip := ?_, esp := ?_, words := fun r => ?_, contextToIntr := rfl, inside := ?_ },
    ⟨layout, .inr rfl, (by decide : (0x1000 : Address) ≠ 0x1100), rfl, fun _ _ => rfl⟩⟩
  · rw [first]
    exact eip
  · rw [second, pointer]
    exact esp
  · rw [pointer, registers, words]
    exact forkedMemory_words r
  · intro x inside
    rw [pointer] at inside
    simp [forkedProcesses, Processes.twoProcesses, Region.Contains]
    bv_omega

end Forked

/-- The code of `switch_to` and of `kernel_thread_entry`, whose function returns to `0x802B`. -/
def moreCode : List Instr :=
  switchTo ++ (threadCallOps.map .op ++ [.callReg .ebx]) ++ ([Op.push .eax].map .op ++ [.call 0x9100])

theorem moreCode_short : (placedCode ++ moreCode).length ≤ 0x8000 := by decide

theorem moreCode_switchTo : (placedCpu moreCode).CodeAt 0x8014 switchTo 0x8027 := by
  have part := @placedCpu_code moreCode placedCode switchTo
    ((threadCallOps.map .op ++ [.callReg .ebx]) ++ ([Op.push .eax].map .op ++ [.call 0x9100]))
    (by simp only [moreCode, List.append_assoc]) moreCode_short
  exact part

theorem moreCode_threadEntry : ThreadEntry (placedCpu moreCode) 0x8027 0x802B 0x9100 := by
  have call := @placedCpu_code moreCode (placedCode ++ switchTo)
    (threadCallOps.map .op ++ [.callReg .ebx]) ([Op.push .eax].map .op ++ [.call 0x9100])
    (by simp only [moreCode, List.append_assoc]) moreCode_short
  have exit := @placedCpu_code moreCode
    (placedCode ++ switchTo ++ (threadCallOps.map .op ++ [.callReg .ebx]))
    ([Op.push .eax].map .op ++ [.call 0x9100]) []
    (by simp only [moreCode, List.append_assoc, List.append_nil]) moreCode_short
  exact ⟨call, _, exit⟩

theorem twoProcesses_inKernel {memory : Memory} :
    Processes.InKernel (Processes.twoProcesses memory).state :=
  ⟨(by decide : Selector.rpl 8 = 0), (by decide : Flags.Regular 2),
    (by decide : Flags.isNested 2 = false)⟩

/-- The other process works on its stack. -/
theorem forked_works {offset : BitVec 32} {saved : IdtFrame} :
    (forkedProcesses offset saved).Works
      (Processes.twoProcesses ((forkedMemory offset saved).store 0x2800 7)) where
  current := rfl
  layout := by
    obtain ⟨-, esp⟩ := @forkedMemory_context offset saved
    have kept : (PcbAt.contextAt ((forkedMemory offset saved).store 0x2800 7) 0x1100).esp = 0x4FBC :=
      (Memory.load_store_of_apart (by decide)).trans esp
    exact Processes.twoProcesses_layout (by rw [kept]; decide) (by rw [kept]; decide)
  stack _ _ _ := rfl
  keeps p living _ waits x own := by
    refine Memory.store_of_outside fun inside => ?_
    rcases living with rfl | rfl
    · exact waits rfl
    · rcases own with member | stack
      · have control := member.region
        simp only [PcbAt.region, Region.Contains, sizeofPcb] at control
        bv_omega
      · simp [forkedProcesses, Processes.twoProcesses, Region.Contains] at stack
        bv_omega

theorem userState_valid_more : Valid (placedCpu moreCode).descriptors userState := userState_valid

/-- A process of the user forks, and before the new process runs, its parent works on. -/
theorem fork_child_runs_userState : ∃ after started count child,
      (forking (frameOf userState 128 0)).copyThread placedSymbols 0x1100 0xBFFF0000 0xC000DFBC =
          .ok after ∧
        (Processes.twoProcesses ((forkedMemory 0xBFFF0000 (frameOf userState 128 0)).store 0x2800
          7)).runThread (placedCpu moreCode) 0x8014 0x1100 0x200 = some started ∧
        (placedCpu moreCode).run count started.state = some child ∧
        child.eip = 0x400000 ∧ child.registers.esp = 0x4000 ∧ child.eflags = 0x202 ∧
        child.cr3 = 0x1000 := by
  have done : ∃ after, (forking (frameOf userState 128 0)).copyThread placedSymbols 0x1100 0xBFFF0000
      0xC000DFBC = .ok after := ⟨_, rfl⟩
  obtain ⟨after, forked⟩ := done
  obtain ⟨saved, represents, waits⟩ := forking_done forked
  have registers : Saved userState 128 0
      ((forking (frameOf userState 128 0)).words.frame 0xC000DFBC) := fun r _ => congrFun saved r
  obtain ⟨started, count, child, done, run, eip, esp, -, eflags, cr3, -⟩ :=
    fork_child_runs moreCode_switchTo (placedCpu_loaded moreCode_short)
      userState_valid_more registers forked represents waits
      (.single ⟨.works forked_works, (by decide : (0x1000 : Address) ≠ 0x1100), .inr rfl⟩)
      Processes.twoProcesses_room twoProcesses_inKernel
  refine ⟨after, started, count, child, forked, done, run, eip, ?_, eflags, ?_⟩
  · have place : childEsp 3 0x4FFC (after.thread 0x1100).frame 0xBFFF0000 = 0x4000 := by
      rw [childEsp, if_neg (by decide)]
      decide
    rw [esp]
    exact place
  · rw [cr3]
    refine (forkedMemory_outside (by decide)).trans ?_
    exact Memory.load_store_self

theorem kernel_thread_runs_placed : ∃ after started count called,
      (forking (kernelThreadFrame 0x8027 0x9200 42)).copyThread placedSymbols 0x1100 0 0xC000DFBC =
          .ok after ∧
        (forkedProcesses 0 (kernelThreadFrame 0x8027 0x9200 42)).runThread (placedCpu moreCode) 0x8014
            0x1100 0x200 = some started ∧
        (placedCpu moreCode).run count started.state = some called ∧
        called.eip = 0x9200 ∧ called.Stack [0x802B, 42] ∧
        ∀ x, (x - called.registers.esp).toNat < 8 → Region.Contains ⟨0x4000, 0x1000⟩ x := by
  have done : ∃ after, (forking (kernelThreadFrame 0x8027 0x9200 42)).copyThread placedSymbols 0x1100 0
      0xC000DFBC = .ok after := ⟨_, rfl⟩
  obtain ⟨after, forked⟩ := done
  obtain ⟨saved, represents, waits⟩ := forking_done forked
  obtain ⟨started, count, called, done, run, eip, stack, -, -, inside, -⟩ :=
    kernel_thread_runs moreCode_switchTo (placedCpu_loaded moreCode_short) placedCpu_kernel
      moreCode_threadEntry saved forked represents waits .refl Processes.twoProcesses_room
      twoProcesses_inKernel
  exact ⟨after, started, count, called, forked, done, run, eip, stack, inside⟩

end WindOs.Proc
