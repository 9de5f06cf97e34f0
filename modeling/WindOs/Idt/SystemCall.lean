import WindOs.Idt.Gates

namespace WindOs.Idt

open X86 Proc Data

/-! # System calls and changes of the mode

The handlers of the vectors that a process of the user can reach, and of the one that makes a process
of the user out of the kernel, work on the frame alone.
-/

/-- The registers in which a process passes the arguments of a system call. -/
def arguments (s : State) : Nat → BitVec 32 := fun i =>
  if i = 0 then s.registers.ebx else if i = 1 then s.registers.ecx else 0

section Calls

variable {labels : Labels} {place : TssPlace} {tables : Tables} {s : State} {next : Address}
  {instr : Address → Option (Instr × Address)} {m after : Machine}

/-- A system call passes `ebx` and `ecx` to the function that `edx` names, and comes back to the
process with the result in `eax` and every other register as it was, except that `es`, `fs` and `gs`
are now what `ds` is. -/
theorem system_call_returns (systemCall : BitVec 32 → Machine.Handler)
    (loaded : Loaded (cpuOf (tablesInit labels.intr place tables) instr) labels)
    (valid : Valid (tablesInit labels.intr place tables).descriptors s) (user : s.cpl = 3)
    (tss : s.ss0 = 0x10) {frame : Nat} (frameAt : BitVec.ofNat 32 frame = frameAddress s)
    (words : ∀ r, m.words.frame frame r =
      (trapEntered labels { s with eip := next } 0x80 0).memory.load
        (BitVec.ofNat 32 (Words.slot frame r)))
    (done : m.systemIntr systemCall frame = .ok after)
    (kept : ∀ result called,
      systemCall s.registers.edx (arguments s) (m.setFrame frame) = .ok (result, called) →
        called.words.frame frame = m.words.frame frame) :
    let cpu := cpuOf (tablesInit labels.intr place tables) instr
    ∃ result called d entering,
      systemCall s.registers.edx (arguments s) (m.setFrame frame) = .ok (result, called) ∧
      cpu.exec s next (.int 0x80) = some d ∧
      cpu.run entering d = some (trapEntered labels { s with eip := next } 0x80 0) ∧
      (tablesInit labels.intr place tables).trap (frameOf { s with eip := next } 0x80 0) =
        .systemIntr ∧
      (after.thread after.current).frame = (m.thread m.current).frame ∧
      ∀ t, Handled labels { s with eip := next } t 3 (after.words.frame frame) →
        ∃ leaving, cpu.run leaving t =
          some (resumed { s with eip := next } t (BitVec.ofInt 32 result)) := by
  intro cpu
  let call : State := { s with eip := next }
  have saved : m.words.frame frame = frameOf call 0x80 0 := by
    funext r
    exact (words r).trans (@trapEntered_words labels call 0x80 0 frame user frameAt r)
  obtain ⟨⟨result, called⟩, handled, ended⟩ := ok_of_bind done
  have names : (fun i : Nat => if i = 0 then m.words.frame frame .ebx
      else if i = 1 then m.words.frame frame .ecx else 0) = arguments s := by
    rw [saved]
    rfl
  have number : m.words.frame frame .edx = s.registers.edx := by
    rw [saved]
    rfl
  rw [names, number] at handled
  obtain rfl := Except.ok.inj ended
  have frames : (called.words.setRegister frame .eax (BitVec.ofInt 32 result)).frame frame =
      Function.update (frameOf call 0x80 0) .eax (BitVec.ofInt 32 result) := by
    rw [Words.frame_setRegister, kept result called handled, saved]
  obtain ⟨entering, entered⟩ := @trap_entered cpu labels call 0x80 0 loaded tablesInit_kernel
    (by decide)
  refine ⟨result, called, _, entering, handled,
    int_done (by decide) (by decide) (Nat.le_of_eq user) (fun _ => tss), entered,
    tablesInit_trap (by decide), ?_, fun t returned => ?_⟩
  · simp only [Machine.setFrame, Function.update_self]
  · have same : Valid cpu.descriptors call :=
      { code := valid.code, data := valid.data, regular := valid.regular, outer := valid.outer
        stack := valid.stack }
    have handled : Handled labels call t call.cpl
        (Function.update (frameOf call 0x80 0) .eax (BitVec.ofInt 32 result)) := by
      rwa [Machine.setFrame, frames, ← show call.cpl = 3 from user] at returned
    obtain ⟨leaving, done⟩ := handled_run loaded handled same.returnable_eax
    exact ⟨leaving, done.trans (congrArg some (returned_eax same handled))⟩

end Calls

/-- The processor of `placedCpu` with the tables of the kernel. -/
def placedKernel (more : List Instr) : Cpu :=
  cpuOf (tablesInit placedLabels.intr ⟨0xC0120000, 104⟩ emptyTables) (placedCpu more).instr

theorem placedKernel_loaded {more : List Instr} (short : (placedCode ++ more).length ≤ 0x8000) :
    Loaded (placedKernel more) placedLabels := (placedCpu_loaded short).congr rfl

/-- A process whose kernel stack ends where that of `Machine.trapped` does. -/
def callingState : State := { userState with esp0 := 0xC000DFFC }

theorem callingState_valid {more : List Instr} : Valid (placedKernel more).descriptors callingState where
  code := tablesInit_code
  data := @usable_of_data _ _ 3 _ tablesInit_data (by decide) (by decide)
  regular := by decide
  outer _ := ⟨tablesInit_data, by decide⟩
  stack _ := ⟨tablesInit_data, by decide⟩

/-- A system call that adds its arguments. -/
def addArguments : BitVec 32 → Machine.Handler := fun _ arg m => .ok ((arg 0 + arg 1).toInt, m)

/-- After the instruction `int`, which has two bytes. -/
def calledState : State := { callingState with eip := 0x400002 }

theorem system_call_returns_addArguments : ∃ after result called d entering,
    (Machine.trapped (frameOf calledState 0x80 0)).systemIntr addArguments 0xC000DFBC = .ok after ∧
      addArguments 3 (arguments callingState)
        ((Machine.trapped (frameOf calledState 0x80 0)).setFrame 0xC000DFBC) = .ok (result, called) ∧
      (placedKernel []).exec callingState 0x400002 (.int 0x80) = some d ∧
      (placedKernel []).run entering d = some (trapEntered placedLabels calledState 0x80 0) ∧
      ∀ t, Handled placedLabels calledState t 3 (after.words.frame 0xC000DFBC) →
        ∃ leaving, (placedKernel []).run leaving t =
          some (resumed calledState t (BitVec.ofInt 32 result)) := by
  have frameAt : BitVec.ofNat 32 0xC000DFBC = frameAddress callingState := by decide
  have done : ∃ after, (Machine.trapped (frameOf calledState 0x80 0)).systemIntr addArguments
      0xC000DFBC = .ok after := ⟨_, rfl⟩
  obtain ⟨after, done⟩ := done
  have words (r : Register) : (Machine.trapped (frameOf calledState 0x80 0)).words.frame 0xC000DFBC r =
      (trapEntered placedLabels calledState 0x80 0).memory.load
        (BitVec.ofNat 32 (Words.slot 0xC000DFBC r)) := by
    have saved : (Machine.trapped (frameOf calledState 0x80 0)).words.frame 0xC000DFBC =
        frameOf calledState 0x80 0 := Words.frame_setFrame
    have stored := @trapEntered_words placedLabels calledState 0x80 0 0xC000DFBC
      (by decide : Selector.rpl 27 = 3) frameAt r
    exact (congrFun saved r).trans stored.symm
  have loaded : Loaded (placedKernel []) placedLabels := placedKernel_loaded (by decide)
  have valid : Valid (placedKernel []).descriptors callingState := callingState_valid
  obtain ⟨result, called, d, entering, handled, call, entered, -, -, returns⟩ :=
    system_call_returns addArguments loaded valid (by decide : Selector.rpl 27 = 3) rfl frameAt words
      done (by rintro result called ⟨⟩; rfl)
  exact ⟨after, result, called, d, entering, done, handled, call, entered, returns⟩

def switchToUserMode : List Instr := [.op (.subImm 8 .esp), .int 120, .op (.addImm 8 .esp)]

/-- `switch_to_kern_mode`, where the compiler has chosen the register `scratch`. -/
def switchToKernMode (jmpToOldEsp : Address) (scratch : Reg) : List Instr :=
  [.int 121, .op (.addImm 8 .esp), .op (.movAbs jmpToOldEsp scratch), .op (.movReg scratch .esp)]

/-- `switch_to_user_handler`, with the address of the frame -/
def switchToUserHandler (address : Address) (frame : IdtFrame) : IdtFrame :=
  let frame := Function.update frame .cs (0x18 ||| 0x03)
  let frame := Function.update frame .ss (0x20 ||| 0x03)
  let frame := Function.update frame .myEax (frame .ss)
  let frame := Function.update frame .eflags (frame .eflags ||| 0x3000)
  Function.update frame .esp (address + 56)

/-- `switch_to_kern_handler`, with the new value of `jmp_to_old_esp` -/
def switchToKernHandler (frame : IdtFrame) : IdtFrame × Word :=
  let frame := Function.update frame .cs (0x08 ||| 0x00)
  let frame := Function.update frame .myEax (0x10 ||| 0x00)
  let frame := Function.update frame .eflags (frame .eflags &&& ~~~ 0x3000)
  (frame, frame .esp)

/-- The registers of the segments, after a change of the mode. -/
def flatSegments (code data : Selector) : Segments :=
  { cs := code, ss := data, ds := data, es := data, fs := data, gs := data }

section Modes

variable {labels : Labels} {place : TssPlace} {tables : Tables} {s t : State} {a b : Address}
  {instr : Address → Option (Instr × Address)} {jmpToOldEsp : Address} {scratch : Reg}

theorem regular_or_iopl {flags : Word} (regular : Flags.Regular flags) :
    Flags.Regular (flags ||| 0x3000) := by
  rw [Flags.Regular] at *
  rw [BitVec.and_or_distrib_right, regular]
  rfl

theorem regular_and_iopl {flags : Word} (regular : Flags.Regular flags) :
    Flags.Regular (flags &&& ~~~ 0x3000) := by
  rw [Flags.Regular] at *
  rw [BitVec.and_assoc, BitVec.and_comm (~~~ 0x3000), ← BitVec.and_assoc, regular]
  rfl

/-- The frame of `switch_to_user_handler` leads to the user. -/
theorem switchToUserHandler_returnable {address : Address} {frame : IdtFrame}
    (regular : Flags.Regular (frame .eflags)) :
    Returnable (tablesInit labels.intr place tables).descriptors 3
      (switchToUserHandler address frame) where
  code := @tablesInit_code labels.intr place tables 0x1B
  rpl := (by decide : Selector.rpl 0x1B = 3)
  data := usable_of_data (@tablesInit_data labels.intr place tables 0x23) (Nat.le_refl 3)
    (by decide : Selector.rpl 0x23 ≤ 3)
  isProtected := (regular_or_iopl regular).isProtected
  outer _ := ⟨@tablesInit_data labels.intr place tables 0x23, (by decide : Selector.rpl 0x23 = 3)⟩

theorem switchToKernHandler_returnable {frame : IdtFrame}
    (regular : Flags.Regular (frame .eflags)) :
    Returnable (tablesInit labels.intr place tables).descriptors 0 (switchToKernHandler frame).1 where
  code := @tablesInit_code labels.intr place tables 0x08
  rpl := (by decide : Selector.rpl 0x08 = 0)
  data := usable_of_data (@tablesInit_data labels.intr place tables 0x10) (Nat.le_refl 0)
    (by decide : Selector.rpl 0x10 ≤ 0)
  isProtected := (regular_and_iopl regular).isProtected
  outer inner := absurd rfl inner

/-- From the kernel to the user on the same stack: the handler makes the processor find a stack
pointer and a stack segment in the eight bytes below the old stack pointer. -/
theorem to_user_mode (loaded : Loaded (cpuOf (tablesInit labels.intr place tables) instr) labels)
    (code : (cpuOf (tablesInit labels.intr place tables) instr).CodeAt a switchToUserMode b)
    (here : s.eip = a) (inner : s.cpl = 0) (regular : Flags.Regular s.eflags) :
    let cpu := cpuOf (tablesInit labels.intr place tables) instr
    ∃ u entering, u.registers.esp = s.registers.esp - 8 ∧
      cpu.run entering s = some (trapEntered labels u 120 0) ∧
      ∀ t, Handled labels u t 3 (switchToUserHandler (frameAddress u) (frameOf u 120 0)) →
        ∃ leaving eflags, eflags &&& ~~~ 0x8D5 = (s.eflags ||| 0x3000) &&& ~~~ 0x8D5 ∧
          cpu.run leaving t = some { t with
            registers := s.registers
            segments := flatSegments 0x1B 0x23
            eip := b
            eflags } := by
  intro cpu
  obtain ⟨int, first, called, second, last⟩ := code
  let u : State := { s with
    registers := { s.registers with esp := s.registers.esp - 8 }
    eip := called
    eflags := Flags.sub s.eflags s.registers.esp 8 }
  have reserved : cpu.run 1 s = some { u with eip := int } := Cpu.run_one (here ▸ first) rfl
  have trapped : cpu.run 1 { u with eip := int } = some (delivered labels u 120 0) :=
    Cpu.run_one second (int_done (by decide) (by decide) (Nat.le_of_eq inner)
      fun outer => absurd inner outer)
  obtain ⟨entering, entered⟩ := @trap_entered cpu labels u 120 0 loaded tablesInit_kernel (by decide)
  refine ⟨u, _, rfl, Cpu.run_trans reserved (Cpu.run_trans trapped entered), fun t handled => ?_⟩
  have regularFrame : Flags.Regular (frameOf u 120 0 .eflags) := regular.sub
  obtain ⟨leaving, left⟩ :=
    handled_run loaded handled (switchToUserHandler_returnable regularFrame)
  have top : frameAddress u + 56 = s.registers.esp - 8 := by
    have kernel : u.cpl = 0 := inner
    rw [frameAddress, stackTop, if_pos kernel, if_pos kernel]
    simp only [u]
    bv_omega
  have flags : Flags.restore 0 t.eflags (Flags.sub s.eflags s.registers.esp 8 ||| 0x3000) =
      Flags.sub s.eflags s.registers.esp 8 ||| 0x3000 :=
    handled.regular.restore (regular_or_iopl regular.sub)
  refine ⟨_, Flags.add (Flags.sub s.eflags s.registers.esp 8 ||| 0x3000) (s.registers.esp - 8) 8, ?_,
    Cpu.run_trans left (Cpu.run_one last.last ?_)⟩
  · rw [Flags.add_and (by decide), BitVec.and_or_distrib_right, Flags.sub_and (by decide),
      ← BitVec.and_or_distrib_right]
  · simp only [returned, switchToUserHandler, Function.update_apply, reduceCtorEq, if_false, if_true,
      frameOf, Cpu.exec, Cpu.op, State.set, State.get, Registers.get, Registers.set, Option.map_some,
      top, u, flags, BitVec.sub_add_cancel, flatSegments]
    rfl

/-- From the user to the kernel: the handler remembers the stack pointer of the user, to which the
code after the interrupt goes back. -/
theorem to_kern_mode (loaded : Loaded (cpuOf (tablesInit labels.intr place tables) instr) labels)
    (code : (cpuOf (tablesInit labels.intr place tables) instr).CodeAt a
      (switchToKernMode jmpToOldEsp scratch) b)
    (here : s.eip = a) (user : s.cpl = 3) (tss : s.ss0 = 0x10) (regular : Flags.Regular s.eflags) :
    let cpu := cpuOf (tablesInit labels.intr place tables) instr
    ∃ u entering, u.registers = s.registers ∧
      cpu.run entering s = some (trapEntered labels u 121 0) ∧
      ∀ t, Handled labels u t 0 (switchToKernHandler (frameOf u 121 0)).1 →
        t.memory.load jmpToOldEsp = (switchToKernHandler (frameOf u 121 0)).2 →
        ∃ leaving eflags, eflags &&& ~~~ 0x8D5 = s.eflags &&& ~~~ 0x3000 &&& ~~~ 0x8D5 ∧
          cpu.run leaving t = some { t with
            registers := s.registers.set scratch s.registers.esp
            segments := flatSegments 0x08 0x10
            eip := b
            eflags } := by
  intro cpu
  obtain ⟨called, first, code⟩ := code
  let u : State := { s with eip := called }
  have trapped : cpu.run 1 s = some (delivered labels u 121 0) :=
    Cpu.run_one (here ▸ first) (int_done (by decide) (by decide) (Nat.le_of_eq user) fun _ => tss)
  obtain ⟨entering, entered⟩ := @trap_entered cpu labels u 121 0 loaded tablesInit_kernel (by decide)
  refine ⟨u, _, rfl, Cpu.run_trans trapped entered, fun t handled old => ?_⟩
  have regularFrame : Flags.Regular (frameOf u 121 0 .eflags) := regular
  obtain ⟨leaving, left⟩ :=
    handled_run loaded handled (switchToKernHandler_returnable regularFrame)
  have flags : Flags.restore 0 t.eflags (s.eflags &&& ~~~ 0x3000) = s.eflags &&& ~~~ 0x3000 :=
    handled.regular.restore (regular_and_iopl regular)
  have outer : u.cpl ≠ 0 := by
    have privilege : u.cpl = 3 := user
    omega
  have ss : t.segments.ss = 0x10 := by rw [handled.ss, if_neg outer, ← tss]
  have popped : cpu.ops [.addImm 8 .esp, .movAbs jmpToOldEsp scratch, .movReg scratch .esp]
      (returned { t with registers := { t.registers with esp := frameAddress u } } 0
        (switchToKernHandler (frameOf u 121 0)).1) = some { t with
      registers := s.registers.set scratch s.registers.esp
      segments := flatSegments 0x08 0x10
      eip := called
      eflags := Flags.add (s.eflags &&& ~~~ 0x3000) (frameAddress u + 56) 8 } := by
    have esp : t.memory.load jmpToOldEsp = s.registers.esp := old
    simp only [returned, switchToKernHandler, Function.update_apply, reduceCtorEq, if_false, if_true,
      frameOf, Cpu.ops, Cpu.op, State.set, State.get, Registers.get, Registers.set, Option.bind_some,
      u, flags, ss, esp, flatSegments]
    cases scratch <;> rfl
  obtain ⟨next, rfl, done⟩ := @Cpu.run_block cpu _ _ called b []
    [.addImm 8 .esp, .movAbs jmpToOldEsp scratch, .movReg scratch .esp] code rfl popped
  refine ⟨_, _, ?_, Cpu.run_trans left done⟩
  exact Flags.add_and (by decide)

/-- Both changes of the mode keep the registers and the stack, and give the process exactly the
segments and the privilege for input and output of its new mode. -/
theorem mode_switches (loaded : Loaded (cpuOf (tablesInit labels.intr place tables) instr) labels) :
    let cpu := cpuOf (tablesInit labels.intr place tables) instr
    (∀ s a b, cpu.CodeAt a switchToUserMode b → s.eip = a → s.cpl = 0 → Flags.Regular s.eflags →
      ∃ u entering, u.registers.esp = s.registers.esp - 8 ∧
        cpu.run entering s = some (trapEntered labels u 120 0) ∧
        (tablesInit labels.intr place tables).trap (frameOf u 120 0) = .switchToUserHandler ∧
        ∀ t, Handled labels u t 3 (switchToUserHandler (frameAddress u) (frameOf u 120 0)) →
          ∃ leaving eflags, eflags &&& ~~~ 0x8D5 = (s.eflags ||| 0x3000) &&& ~~~ 0x8D5 ∧
            cpu.run leaving t = some { t with
              registers := s.registers
              segments := flatSegments 0x1B 0x23
              eip := b
              eflags }) ∧
    ∀ s a b jmpToOldEsp scratch, cpu.CodeAt a (switchToKernMode jmpToOldEsp scratch) b → s.eip = a →
      s.cpl = 3 → s.ss0 = 0x10 → Flags.Regular s.eflags →
      ∃ u entering, u.registers = s.registers ∧
        cpu.run entering s = some (trapEntered labels u 121 0) ∧
        (tablesInit labels.intr place tables).trap (frameOf u 121 0) = .switchToKernHandler ∧
        ∀ t, Handled labels u t 0 (switchToKernHandler (frameOf u 121 0)).1 →
          t.memory.load jmpToOldEsp = (switchToKernHandler (frameOf u 121 0)).2 →
          ∃ leaving eflags, eflags &&& ~~~ 0x8D5 = s.eflags &&& ~~~ 0x3000 &&& ~~~ 0x8D5 ∧
            cpu.run leaving t = some { t with
              registers := s.registers.set scratch s.registers.esp
              segments := flatSegments 0x08 0x10
              eip := b
              eflags } := by
  intro cpu
  refine ⟨fun s a b code here inner regular => ?_,
    fun s a b jmpToOldEsp scratch code here user tss regular => ?_⟩
  · obtain ⟨u, entering, esp, entered, leaves⟩ := to_user_mode loaded code here inner regular
    exact ⟨u, entering, esp, entered, tablesInit_trap (by decide), leaves⟩
  · obtain ⟨u, entering, same, entered, leaves⟩ := to_kern_mode loaded code here user tss regular
    exact ⟨u, entering, same, entered, tablesInit_trap (by decide), leaves⟩

end Modes

/-- The code of both changes of the mode, one after the other. -/
def modeCode : List Instr := switchToUserMode ++ switchToKernMode 0xC0110000 .eax

theorem modeCode_user : (placedKernel modeCode).CodeAt 0x8014 switchToUserMode 0x8017 := by
  have part := @placedCpu_code modeCode placedCode switchToUserMode
    (switchToKernMode 0xC0110000 .eax) rfl (by decide)
  exact part.congr rfl

theorem modeCode_kern :
    (placedKernel modeCode).CodeAt 0x8017 (switchToKernMode 0xC0110000 .eax) 0x801B := by
  have part := @placedCpu_code modeCode (placedCode ++ switchToUserMode)
    (switchToKernMode 0xC0110000 .eax) [] rfl (by decide)
  exact part.congr rfl

/-- The kernel, about to go to the user, and the user, about to come back. -/
def kernelCaller : State :=
  { userState with segments := flatSegments 0x08 0x10, eip := 0x8014 }

def userCaller : State :=
  { userState with segments := flatSegments 0x1B 0x23, eip := 0x8017 }

theorem mode_switches_placed :
    (∃ u entering, u.registers.esp = 0xBFFEFFF8 ∧
      (placedKernel modeCode).run entering kernelCaller = some (trapEntered placedLabels u 120 0) ∧
      ∀ t, Handled placedLabels u t 3 (switchToUserHandler (frameAddress u) (frameOf u 120 0)) →
        ∃ leaving eflags, eflags &&& ~~~ 0x8D5 = (0x202 ||| 0x3000) &&& ~~~ 0x8D5 ∧
          (placedKernel modeCode).run leaving t = some { t with
            registers := kernelCaller.registers
            segments := flatSegments 0x1B 0x23
            eip := 0x8017
            eflags }) ∧
    ∃ u entering, u.registers = userCaller.registers ∧
      (placedKernel modeCode).run entering userCaller = some (trapEntered placedLabels u 121 0) := by
  obtain ⟨toUser, toKern⟩ :=
    @mode_switches placedLabels ⟨0xC0120000, 104⟩ emptyTables (placedCpu modeCode).instr
      (placedKernel_loaded (by decide))
  obtain ⟨u, entering, same, entered, -, -⟩ :=
    toKern userCaller _ _ _ _ modeCode_kern rfl (by decide) rfl (by decide)
  obtain ⟨v, outwards, esp, left, -, leaves⟩ :=
    toUser kernelCaller _ _ modeCode_user rfl (by decide) (by decide)
  exact ⟨⟨v, outwards, esp, left, leaves⟩, u, entering, same, entered⟩

end WindOs.Idt
