import WindOs.X86.Run
import WindOs.Proc.ForkFrame

namespace WindOs.Idt

open X86 Proc

/-! # The way into an interrupt handler and back

The processor and the code of `intr.S` put a `struct idtframe` on the kernel stack and call `trap`
with its address.  When `trap` returns, the registers are taken from the frame again.
-/

/-- The addresses of the code in `intr.S`, and of `trap`. -/
structure Labels where
  intr : Nat → Address
  myPush : Address
  afterTrap : Address
  procAfter : Address
  contextToIntr : Address
  trap : Address

def myIntNoError (labels : Labels) (vector : Nat) : List Instr :=
  [.op (.pushImm 0), .op (.pushImm (BitVec.ofNat 32 vector)), .jmp labels.myPush]

def myIntError (labels : Labels) (vector : Nat) : List Instr :=
  [.op (.pushImm (BitVec.ofNat 32 vector)), .jmp labels.myPush]

/-- The vectors that `intr.S` takes to have an error code. -/
def HasError (vector : Nat) : Prop := 8 ≤ vector ∧ vector ≤ 14

instance {vector : Nat} : Decidable (HasError vector) := inferInstanceAs (Decidable (_ ∧ _))

def intr (labels : Labels) (vector : Nat) : List Instr :=
  if HasError vector then myIntError labels vector else myIntNoError labels vector

/-- All data segments are set from `ax`. -/
def setSegments : List Op :=
  [.movToSegment .eax .ds, .movToSegment .eax .es, .movToSegment .eax .fs, .movToSegment .eax .gs]

def myPushOps : List Op :=
  [.pusha, .movFromSegment .ds .eax, .push .eax, .movImm16 0x10 .eax] ++ setSegments ++ [.push .esp]

/-- `my_push` up to the call -/
def myPush (labels : Labels) : List Instr := myPushOps.map .op ++ [.call labels.trap]

def procAfterOps : List Op := [.pop .eax] ++ setSegments ++ [.popa, .addImm 8 .esp]

/-- `proc_after` -/
def procAfter : List Instr := procAfterOps.map .op ++ [.iret]

/-- The code of `intr.S` is in the memory. -/
structure Loaded (cpu : Cpu) (labels : Labels) : Prop where
  intr : ∀ vector < 256, ∃ b, cpu.CodeAt (labels.intr vector) (intr labels vector) b
  myPush : cpu.CodeAt labels.myPush (myPush labels) labels.afterTrap
  afterTrap : cpu.CodeAt labels.afterTrap [.op (.pop .esp)] labels.procAfter
  procAfter : ∃ b, cpu.CodeAt labels.procAfter procAfter b
  contextToIntr : ∃ b, cpu.CodeAt labels.contextToIntr [.jmp labels.procAfter] b

theorem Loaded.congr {cpu other : Cpu} {labels : Labels} (loaded : Loaded cpu labels)
    (same : other.instr = cpu.instr) : Loaded other labels where
  intr vector known := (loaded.intr vector known).imp fun _ code => code.congr same
  myPush := loaded.myPush.congr same
  afterTrap := loaded.afterTrap.congr same
  procAfter := loaded.procAfter.imp fun _ code => code.congr same
  contextToIntr := loaded.contextToIntr.imp fun _ code => code.congr same

/-- The segments of the kernel in the descriptor table. -/
structure KernelSegments (descriptors : Descriptors) : Prop where
  code : descriptors.code 8 = some 0
  data : descriptors.data 16 = some 0

/-! ## The frame -/

/-- The words of a frame that are always on the stack. -/
def frameWords (frame : IdtFrame) : List Word :=
  [frame .myEax, frame .edi, frame .esi, frame .ebp, frame .noUseEsp, frame .ebx, frame .edx,
    frame .ecx, frame .eax, frame .intrNo, frame .errorCode, frame .eip, frame .cs, frame .eflags]

/-- The words that are there only when the privilege changes. -/
def outerWords (frame : IdtFrame) : List Word := [frame .esp, frame .ss]

/-- What is on the kernel stack of a frame that returns to the privilege `cpl`. -/
def onStack (cpl : Nat) (frame : IdtFrame) : List Word :=
  frameWords frame ++ if cpl = 0 then [] else outerWords frame

/-- A frame with all its words is read word by word. -/
theorem holds_frame {memory : Memory} {address : Nat} {frame : IdtFrame}
    (holds : memory.Holds (BitVec.ofNat 32 address) (onStack 3 frame)) (r : Register) :
    memory.load (BitVec.ofNat 32 (Words.slot address r)) = frame r := by
  have inside : r.ctorIdx < (onStack 3 frame).length := by
    have size : (onStack 3 frame).length = 16 := rfl
    have index := r.ctorIdx_lt
    simp only [sizeofIdtframe] at index
    omega
  rw [Words.slot, BitVec.ofNat_add]
  refine (holds.getElem inside).trans ?_
  cases r <;> rfl

/-- The stack on which the interrupt is handled. -/
def stackTop (s : State) : Word := if s.cpl = 0 then s.registers.esp else s.esp0

def frameAddress (s : State) : Word := stackTop s - BitVec.ofNat 32 (if s.cpl = 0 then 56 else 64)

/-- The frame of an interrupt. -/
def frameOf (s : State) (vector : Nat) (code : Word) : IdtFrame
  | .myEax => lowHalf s.registers.eax s.segments.ds
  | .edi => s.registers.edi
  | .esi => s.registers.esi
  | .ebp => s.registers.ebp
  | .noUseEsp => frameAddress s + 36
  | .ebx => s.registers.ebx
  | .edx => s.registers.edx
  | .ecx => s.registers.ecx
  | .eax => s.registers.eax
  | .intrNo => BitVec.ofNat 32 vector
  | .errorCode => if HasError vector then code else 0
  | .eip => s.eip
  | .cs => s.segments.cs.setWidth 32
  | .eflags => s.eflags
  | .esp => s.registers.esp
  | .ss => s.segments.ss.setWidth 32

/-- The state in which `trap` is entered. -/
def trapEntered (labels : Labels) (s : State) (vector : Nat) (code : Word) : State :=
  { s with
    registers := { s.registers with eax := lowHalf s.registers.eax 16, esp := frameAddress s - 8 }
    segments :=
      { cs := 8, ss := if s.cpl = 0 then s.segments.ss else s.ss0, ds := 16, es := 16, fs := 16,
        gs := 16 }
    eip := labels.trap
    eflags := Flags.entered s.eflags false
    memory := s.memory.pushAll (stackTop s)
      (labels.afterTrap :: frameAddress s :: onStack s.cpl (frameOf s vector code)).reverse }

/-- The gate that `idt_init` makes for a vector. -/
def intrGate (labels : Labels) (vector dpl : Nat) : Gate :=
  { offset := labels.intr vector, selector := 8, dpl, isTrap := false }

section Entry

variable {cpu : Cpu} {labels : Labels} {s t : State} {vector dpl : Nat} {code : Word}

theorem lowHalf_lowHalf {word : Word} {half other : BitVec 16} :
    lowHalf (lowHalf word half) other = lowHalf word other := by
  simp only [lowHalf]
  congr 1
  ext i small
  simp only [BitVec.getElem_extractLsb', BitVec.getLsbD_append]
  grind

theorem setWidth_lowHalf {word : Word} {half : BitVec 16} : (lowHalf word half).setWidth 16 = half := by
  ext i small
  simp only [lowHalf, BitVec.getElem_setWidth, BitVec.getLsbD_append]
  grind

theorem usable_of_data {descriptors : Descriptors} {cpl seg : Nat} {selector : Selector}
    (data : descriptors.data selector = some seg) (current : cpl ≤ seg) (asked : selector.rpl ≤ seg) :
    descriptors.usable cpl selector = true := by
  unfold Descriptors.usable
  simp only [Descriptors.readable, data, current, asked, decide_true, Bool.and_self, Bool.or_true]

/-- What a process may load, the kernel may. -/
theorem usable_inner {descriptors : Descriptors} {cpl : Nat} {selector : Selector}
    (usable : descriptors.usable cpl selector = true) : descriptors.usable 0 selector = true := by
  unfold Descriptors.usable at *
  cases found : descriptors.readable selector with
  | none => simpa only [found] using usable
  | some dpl =>
      simp only [found, Bool.or_eq_true, Bool.and_eq_true, decide_eq_true_eq] at usable ⊢
      exact usable.imp_right fun both => ⟨Nat.zero_le _, both.2⟩

theorem setSegments_done {selector : Selector} (low : s.registers.eax.setWidth 16 = selector)
    (usable : cpu.descriptors.usable s.cpl selector = true) :
    cpu.ops setSegments s = some { s with
      segments := { s.segments with ds := selector, es := selector, fs := selector, gs := selector } } := by
  subst low
  simp only [State.cpl] at usable
  simp only [setSegments, Cpu.ops, Cpu.op, State.get, State.cpl, Registers.get, Segments.set, usable,
    Option.bind_some]

/-- The words that the processor pushes before the handler of a vector. -/
def pushedWords (s : State) (vector : Nat) (code : Word) : List Word :=
  (if s.cpl = 0 then [] else [s.segments.ss.setWidth 32, s.registers.esp]) ++
    [s.eflags, s.segments.cs.setWidth 32, s.eip] ++ if HasError vector then [code] else []

/-- Where the handler of a vector begins. -/
def delivered (labels : Labels) (s : State) (vector : Nat) (code : Word) : State :=
  let t := { s with registers := { s.registers with esp := stackTop s } }
  { t.pushAll (pushedWords s vector code) with
    segments := { s.segments with cs := 8, ss := if s.cpl = 0 then s.segments.ss else s.ss0 }
    eip := labels.intr vector
    eflags := Flags.entered s.eflags false }

theorem deliver_done (kernel : KernelSegments cpu.descriptors)
    (stack : s.cpl ≠ 0 → cpu.descriptors.data s.ss0 = some 0 ∧ s.ss0.rpl = 0) :
    cpu.deliver s (intrGate labels vector dpl) (if HasError vector then some code else none) =
      some (delivered labels s vector code) := by
  have cs : BitVec.ofNat 16 ((8 : Selector).toNat / 4 * 4) = 8 := by decide
  simp only [Cpu.deliver, intrGate, kernel.code, cs, delivered, stackTop, pushedWords]
  by_cases inner : s.cpl = 0
  · simp only [inner, if_true]
    by_cases error : HasError vector
    · simp only [error, if_true]
      rfl
    · simp only [error, if_false]
      rfl
  · simp only [inner, if_false, stack inner, and_self, if_true]
    by_cases error : HasError vector
    · simp only [error, if_true]
      rfl
    · simp only [error, if_false]
      rfl

/-- The words that the code of a vector pushes. -/
def numberWords (vector : Nat) : List Word :=
  (if HasError vector then [] else [0]) ++ [BitVec.ofNat 32 vector]

theorem intr_run (loaded : Loaded cpu labels) (known : vector < 256)
    (here : s.eip = labels.intr vector) :
    ∃ count, cpu.run count s = some { s.pushAll (numberWords vector) with eip := labels.myPush } := by
  obtain ⟨b, code⟩ := loaded.intr vector known
  by_cases error : HasError vector
  · have block : cpu.CodeAt (labels.intr vector)
        ([Op.pushImm (BitVec.ofNat 32 vector)].map .op ++ [.jmp labels.myPush]) b := by
      rwa [intr, if_pos error] at code
    have words : numberWords vector = [BitVec.ofNat 32 vector] := by
      rw [numberWords, if_pos error, List.nil_append]
    obtain ⟨next, code, pushed⟩ := Cpu.run_block block here rfl
    rw [words]
    exact ⟨_, Cpu.run_trans pushed (Cpu.run_one code.last rfl)⟩
  · have block : cpu.CodeAt (labels.intr vector)
        ([Op.pushImm 0, Op.pushImm (BitVec.ofNat 32 vector)].map .op ++ [.jmp labels.myPush]) b := by
      rwa [intr, if_neg error] at code
    have words : numberWords vector = [0, BitVec.ofNat 32 vector] := by
      rw [numberWords, if_neg error, List.cons_append, List.nil_append]
    obtain ⟨next, code, pushed⟩ := Cpu.run_block block here rfl
    rw [words]
    exact ⟨_, Cpu.run_trans pushed (Cpu.run_one code.last rfl)⟩

/-- The words that `my_push` pushes before its call of `trap`. -/
def registerWords (s : State) : List Word :=
  [s.registers.eax, s.registers.ecx, s.registers.edx, s.registers.ebx, s.registers.esp,
    s.registers.ebp, s.registers.esi, s.registers.edi,
    lowHalf s.registers.eax s.segments.ds, s.registers.esp - 36]

theorem myPushOps_done (kernel : KernelSegments cpu.descriptors) (cpl : s.cpl = 0) :
    let t := s.pushAll (registerWords s)
    cpu.ops myPushOps s = some { t with
      registers := { t.registers with eax := lowHalf s.registers.eax 16 }
      segments := { s.segments with ds := 16, es := 16, fs := 16, gs := 16 } } := by
  intro t
  have frame : s.registers.esp - 4 - 4 - 4 - 4 - 4 - 4 - 4 - 4 - 4 = s.registers.esp - 36 := by
    bv_omega
  let first : State :=
    let t := s.pushAll (registerWords s).dropLast
    { t with registers := { t.registers with eax := lowHalf s.registers.eax 16 } }
  have pushed : cpu.ops [.pusha, .movFromSegment .ds .eax, .push .eax, .movImm16 0x10 .eax] s =
      some first := by
    simp only [first, registerWords, List.dropLast, State.pushAll, List.foldl, Cpu.ops, Cpu.op,
      State.get, State.set, State.pusha, State.push, Registers.get, Registers.set, Segments.get,
      Option.bind_some, lowHalf_lowHalf]
  have usable : cpu.descriptors.usable first.cpl 16 = true :=
    usable_of_data kernel.data (Nat.le_of_eq cpl) (by decide)
  have low : first.registers.eax.setWidth 16 = (16 : Selector) := setWidth_lowHalf
  rw [myPushOps, Cpu.ops_append, Cpu.ops_append, pushed, Option.bind_some,
    setSegments_done low usable, Option.bind_some]
  simp only [t, first, registerWords, List.dropLast, State.pushAll, List.foldl, Cpu.ops, Cpu.op,
    State.get, State.push, Registers.get, Option.bind_some, frame]

theorem myPush_run (loaded : Loaded cpu labels) (kernel : KernelSegments cpu.descriptors)
    (here : s.eip = labels.myPush) (cpl : s.cpl = 0) :
    let t := s.pushAll (registerWords s ++ [labels.afterTrap])
    cpu.run (myPush labels).length s = some { t with
      registers := { t.registers with eax := lowHalf s.registers.eax 16 }
      segments := { s.segments with ds := 16, es := 16, fs := 16, gs := 16 }
      eip := labels.trap } := by
  intro t
  obtain ⟨next, code, pushed⟩ := Cpu.run_block loaded.myPush here (myPushOps_done kernel cpl)
  have last := code.last
  refine Cpu.run_trans pushed (Cpu.run_one code.last ?_)
  simp only [t, State.pushAll_concat]
  rfl

/-- Below the words of the processor and the number the frame goes on with the registers. -/
theorem numbered_esp :
    stackTop s - BitVec.ofNat 32 (4 * (pushedWords s vector code).length) -
      BitVec.ofNat 32 (4 * (numberWords vector).length) = frameAddress s + 36 := by
  by_cases inner : s.cpl = 0 <;> by_cases error : HasError vector <;>
    simp only [pushedWords, numberWords, frameAddress, inner, error, if_true, if_false,
      List.length_append, List.length_cons, List.length_nil] <;> bv_omega

/-- All the words that are pushed make the frame and the call of `trap`. -/
theorem words_eq {t : State} (registers : t.registers = { s.registers with esp := frameAddress s + 36 })
    (ds : t.segments.ds = s.segments.ds) :
    pushedWords s vector code ++ numberWords vector ++ (registerWords t ++ [labels.afterTrap]) =
      (labels.afterTrap :: frameAddress s :: onStack s.cpl (frameOf s vector code)).reverse := by
  have frame : frameAddress s + 36 - 36 = frameAddress s := by bv_omega
  simp only [registerWords, registers, ds, frame, onStack, frameWords, outerWords, frameOf,
    pushedWords, numberWords]
  by_cases inner : s.cpl = 0 <;> by_cases error : HasError vector <;>
    simp only [inner, error, if_true, if_false, List.reverse_cons, List.reverse_nil,
      List.nil_append, List.append_nil, List.cons_append]

theorem length_onStack {cpl : Nat} {frame : IdtFrame} :
    4 * (onStack cpl frame).length = if cpl = 0 then 56 else 64 := by
  by_cases inner : cpl = 0 <;>
    simp only [onStack, frameWords, outerWords, inner, if_true, if_false, List.length_append,
      List.length_cons, List.length_nil]

theorem trapEntered_stack :
    (trapEntered labels s vector code).Stack
      (labels.afterTrap :: frameAddress s :: onStack s.cpl (frameOf s vector code)) := by
  let words : List Word :=
    labels.afterTrap :: frameAddress s :: onStack s.cpl (frameOf s vector code)
  have size : 4 * (onStack s.cpl (frameOf s vector code)).length = if s.cpl = 0 then 56 else 64 :=
    length_onStack
  have empty : s.memory.Holds (stackTop s) [] := trivial
  have holds : (s.memory.pushAll (stackTop s) words.reverse).Holds
      (stackTop s - BitVec.ofNat 32 (4 * words.reverse.length)) (words.reverse.reverse ++ []) :=
    empty.pushAll (by
      simp only [words, List.length_reverse, List.length_cons, List.length_nil]
      split at size <;> omega)
  have place : stackTop s - BitVec.ofNat 32 (4 * words.reverse.length) = frameAddress s - 8 := by
    simp only [words, List.length_reverse, List.length_cons, frameAddress]
    rw [← size]
    bv_omega
  rw [place, List.reverse_reverse, List.append_nil] at holds
  exact holds

/-- The frame of a process of the user, as `trap` finds it. -/
theorem trapEntered_words {frame : Nat} (user : s.cpl = 3)
    (place : BitVec.ofNat 32 frame = frameAddress s) (r : Register) :
    (trapEntered labels s vector code).memory.load (BitVec.ofNat 32 (Words.slot frame r)) =
      frameOf s vector code r := by
  have holds := (@trapEntered_stack labels s vector code).tail.tail
  have esp : (trapEntered labels s vector code).registers.esp + 4 + 4 = BitVec.ofNat 32 frame := by
    have pointer : (trapEntered labels s vector code).registers.esp = frameAddress s - 8 := rfl
    rw [pointer, place]
    bv_omega
  rw [esp, user] at holds
  exact holds_frame holds r

/-- From the first instruction of the handler to the call of `trap`. -/
theorem trap_entered (loaded : Loaded cpu labels) (kernel : KernelSegments cpu.descriptors)
    (known : vector < 256) :
    ∃ count, cpu.run count (delivered labels s vector code) =
      some (trapEntered labels s vector code) := by
  let numbered : State :=
    { (delivered labels s vector code).pushAll (numberWords vector) with eip := labels.myPush }
  obtain ⟨first, moved⟩ : ∃ count, cpu.run count (delivered labels s vector code) = some numbered :=
    intr_run loaded known rfl
  have registers : numbered.registers = { s.registers with esp := frameAddress s + 36 } := by
    simp only [numbered, State.pushAll_eq, delivered, numbered_esp]
  have segments : numbered.segments =
      { s.segments with cs := 8, ss := if s.cpl = 0 then s.segments.ss else s.ss0 } := by
    simp only [numbered, State.pushAll_eq, delivered]
  have cpl : numbered.cpl = 0 := by
    rw [State.cpl, segments]
    exact (by decide : Selector.rpl 8 = 0)
  have memory : numbered.memory =
      s.memory.pushAll (stackTop s) (pushedWords s vector code ++ numberWords vector) := by
    simp only [numbered, State.pushAll_eq, delivered, Memory.pushAll_append]
  have esp : numbered.registers.esp =
      stackTop s - BitVec.ofNat 32 (4 * (pushedWords s vector code ++ numberWords vector).length) := by
    rw [registers, List.length_append]
    have here : stackTop s - BitVec.ofNat 32 (4 * (pushedWords s vector code).length) -
        BitVec.ofNat 32 (4 * (numberWords vector).length) = frameAddress s + 36 := numbered_esp
    bv_omega
  have ds : numbered.segments.ds = s.segments.ds := by rw [segments]
  have pushed := myPush_run loaded kernel rfl cpl
  refine ⟨_, (Cpu.run_trans moved pushed).trans ?_⟩
  have flags : numbered.eflags = Flags.entered s.eflags false := by
    simp only [numbered, State.pushAll_eq, delivered]
  have others : numbered.cr3 = s.cr3 ∧ numbered.ss0 = s.ss0 ∧ numbered.esp0 = s.esp0 := by
    simp only [numbered, State.pushAll_eq, delivered, and_self]
  have bottom : frameAddress s + 36 - BitVec.ofNat 32 (4 * 11) = frameAddress s - 8 := by bv_omega
  simp only [State.pushAll_eq, trapEntered, memory, flags, others, segments, Option.some.injEq,
    State.mk.injEq, true_and]
  refine ⟨?_, ?_⟩
  · simp only [registers, List.length_append, registerWords, List.length_cons, List.length_nil,
      Nat.reduceAdd, bottom]
  · rw [esp, ← Memory.pushAll_append, words_eq registers ds]

end Entry

/-- A frame that `iret` accepts when it goes back to the privilege `cpl`. -/
structure Returnable (descriptors : Descriptors) (cpl : Nat) (frame : IdtFrame) : Prop where
  code : descriptors.code ((frame .cs).setWidth 16) = some cpl
  rpl : Selector.rpl ((frame .cs).setWidth 16) = cpl
  data : descriptors.usable cpl ((frame .myEax).setWidth 16) = true
  isProtected : Flags.isProtected (frame .eflags)
  outer : cpl ≠ 0 → descriptors.data ((frame .ss).setWidth 16) = some cpl ∧
    Selector.rpl ((frame .ss).setWidth 16) = cpl

/-- A null selector is zero when `iret` has lowered the privilege. -/
def cleared (cpl : Nat) (selector : Selector) : Selector :=
  if cpl ≠ 0 ∧ selector.toNat / 4 = 0 then 0 else selector

/-- The state with the registers of a frame at the top of the stack. -/
def returned (s : State) (cpl : Nat) (frame : IdtFrame) : State :=
  { s with
    registers :=
      { eax := frame .eax, ecx := frame .ecx, edx := frame .edx, ebx := frame .ebx,
        esp := if cpl = 0 then s.registers.esp + 56 else frame .esp
        ebp := frame .ebp, esi := frame .esi, edi := frame .edi }
    segments :=
      { cs := (frame .cs).setWidth 16
        ss := if cpl = 0 then s.segments.ss else (frame .ss).setWidth 16
        ds := cleared cpl ((frame .myEax).setWidth 16), es := cleared cpl ((frame .myEax).setWidth 16)
        fs := cleared cpl ((frame .myEax).setWidth 16)
        gs := cleared cpl ((frame .myEax).setWidth 16) }
    eip := frame .eip
    eflags := Flags.restore 0 s.eflags (frame .eflags) }

section Return

variable {cpu : Cpu} {labels : Labels} {s t : State} {cpl : Nat} {frame : IdtFrame}

/-- The state before `iret`. -/
def beforeIret (s : State) (frame : IdtFrame) : State :=
  { s with
    registers :=
      { eax := frame .eax, ecx := frame .ecx, edx := frame .edx, ebx := frame .ebx,
        esp := s.registers.esp + 44
        ebp := frame .ebp, esi := frame .esi, edi := frame .edi }
    segments := { s.segments with
      ds := (frame .myEax).setWidth 16, es := (frame .myEax).setWidth 16
      fs := (frame .myEax).setWidth 16, gs := (frame .myEax).setWidth 16 }
    eflags := Flags.add s.eflags (s.registers.esp + 36) 8 }

theorem procAfterOps_done (stack : s.Stack (onStack cpl frame)) (inner : s.cpl = 0)
    (back : Returnable cpu.descriptors cpl frame) :
    cpu.ops procAfterOps s = some (beforeIret s frame) := by
  simp only [State.Stack, onStack, frameWords, List.cons_append, Memory.Holds,
    BitVec.ofNat_eq_ofNat, BitVec.add_assoc, BitVec.reduceAdd] at stack
  obtain ⟨myEax, edi, esi, ebp, -, ebx, edx, ecx, eax, -⟩ := stack
  let popped : State :=
    { s with registers := { s.registers with eax := frame .myEax, esp := s.registers.esp + 4 } }
  have first : cpu.ops [.pop .eax] s = some popped := by
    simp only [popped, Cpu.ops, Cpu.op, State.set, State.discard, State.top, Registers.set,
      Option.bind_some, myEax]
  have usable : cpu.descriptors.usable popped.cpl ((frame .myEax).setWidth 16) = true := by
    have kernel : popped.cpl = 0 := inner
    rw [kernel]
    exact usable_inner back.data
  rw [procAfterOps, Cpu.ops_append, Cpu.ops_append, first, Option.bind_some,
    setSegments_done rfl usable, Option.bind_some]
  simp only [popped, beforeIret, Cpu.ops, Cpu.op, State.set, State.get, State.popa, Registers.get,
    Registers.set, Option.bind_some, BitVec.ofNat_eq_ofNat, BitVec.add_assoc, BitVec.reduceAdd,
    BitVec.add_zero, edi, esi, ebp, ebx, edx, ecx, eax]

theorem keptAt_of_usable {descriptors : Descriptors} {selector : Selector}
    (usable : descriptors.usable cpl selector = true) (outer : cpl ≠ 0) :
    descriptors.keptAt cpl selector = cleared cpl selector := by
  unfold Descriptors.usable at usable
  unfold Descriptors.keptAt cleared
  by_cases null : selector.toNat / 4 = 0
  · simp only [null, outer, ne_eq, not_false_eq_true, and_self, if_true]
  · simp only [null, and_false, if_false]
    cases found : descriptors.readable selector with
    | none => simp [found, null] at usable
    | some dpl =>
        simp only [found, null, decide_false, Bool.false_or, Bool.and_eq_true,
          decide_eq_true_eq] at usable
        simp only [usable.1, if_true]

theorem cleared_inner {selector : Selector} : cleared 0 selector = selector :=
  if_neg fun outer => outer.1 rfl

theorem iret_done {next : Address} (stack : s.Stack (onStack cpl frame)) (inner : s.cpl = 0)
    (nested : Flags.isNested s.eflags = false) (back : Returnable cpu.descriptors cpl frame) :
    cpu.iret { beforeIret s frame with eip := next } = some (returned s cpl frame) := by
  simp only [State.Stack, onStack, frameWords, List.cons_append, List.nil_append, Memory.Holds,
    BitVec.ofNat_eq_ofNat, BitVec.add_assoc, BitVec.reduceAdd] at stack
  obtain ⟨-, -, -, -, -, -, -, -, -, -, -, eip, cs, eflags, others⟩ := stack
  have flags : Flags.isNested (Flags.add s.eflags (s.registers.esp + 36#32) 8#32) = false := by
    rw [Flags.isNested_add, nested]
  have restored : Flags.restore 0 (Flags.add s.eflags (s.registers.esp + 36#32) 8#32)
      (frame .eflags) = Flags.restore 0 s.eflags (frame .eflags) := Flags.restore_add
  simp only [State.cpl] at inner
  simp only [Cpu.iret, beforeIret, State.cpl, inner, BitVec.ofNat_eq_ofNat, BitVec.add_assoc,
    BitVec.reduceAdd, BitVec.add_zero, eip, cs, eflags, flags, back.code, back.rpl,
    back.isProtected, Nat.zero_le, Bool.false_eq_true, not_false_eq_true, and_self, if_true]
  by_cases same : cpl = 0
  · subst same
    simp only [if_true, returned, cleared_inner, State.discard, restored, BitVec.ofNat_eq_ofNat,
      BitVec.add_assoc, BitVec.reduceAdd]
  · simp only [same, if_false, outerWords, Memory.Holds, BitVec.ofNat_eq_ofNat, BitVec.add_assoc,
      BitVec.reduceAdd] at others ⊢
    obtain ⟨esp, ss, -⟩ := others
    simp only [esp, ss, back.outer same, keptAt_of_usable back.data same, and_self, if_true, returned,
      same, if_false, restored, State.discard]

theorem procAfter_run (loaded : Loaded cpu labels) (here : s.eip = labels.procAfter)
    (stack : s.Stack (onStack cpl frame)) (inner : s.cpl = 0)
    (nested : Flags.isNested s.eflags = false) (back : Returnable cpu.descriptors cpl frame) :
    ∃ count, cpu.run count s = some (returned s cpl frame) := by
  obtain ⟨b, code⟩ := loaded.procAfter
  obtain ⟨next, code, popped⟩ := Cpu.run_block code here (procAfterOps_done stack inner back)
  exact ⟨_, Cpu.run_trans popped (Cpu.run_one code.last (iret_done stack inner nested back))⟩

/-- The state in which `trap` has returned to `my_push`: its argument is still on the stack, and
above it the frame, which the handler may have changed. -/
structure Handled (labels : Labels) (s t : State) (cpl : Nat) (frame : IdtFrame) : Prop where
  eip : t.eip = labels.afterTrap
  esp : t.registers.esp = frameAddress s - 4
  stack : t.Stack (frameAddress s :: onStack cpl frame)
  cpl : t.cpl = 0
  ss : t.segments.ss = if s.cpl = 0 then s.segments.ss else s.ss0
  regular : Flags.Regular t.eflags
  nested : Flags.isNested t.eflags = false

/-- From the return of `trap` to the code that the frame leads to. -/
theorem handled_run (loaded : Loaded cpu labels) (handled : Handled labels s t cpl frame)
    (back : Returnable cpu.descriptors cpl frame) :
    ∃ count, cpu.run count t = some
      (returned { t with registers := { t.registers with esp := frameAddress s } } cpl frame) := by
  let popped : State :=
    { t with
      registers := { t.registers with esp := frameAddress s }
      eip := labels.procAfter }
  have top : t.memory.load t.registers.esp = frameAddress s := handled.stack.head
  have pops : cpu.run 1 t = some popped := by
    have code : cpu.instr t.eip = some (.op (.pop .esp), labels.procAfter) := by
      rw [handled.eip]
      exact loaded.afterTrap.last
    refine Cpu.run_one code ?_
    simp only [Cpu.exec, Cpu.op, State.set, State.discard, State.top, Registers.set, top,
      Option.map_some, popped]
  have place : t.registers.esp + 4 = frameAddress s := by
    rw [handled.esp, BitVec.sub_add_cancel]
  have stack : popped.Stack (onStack cpl frame) := by
    have rest := handled.stack.tail
    rwa [place] at rest
  obtain ⟨count, done⟩ := procAfter_run loaded rfl stack handled.cpl handled.nested back
  exact ⟨_, Cpu.run_trans pops done⟩

end Return

/-- What the processor sees to in its own registers. -/
structure Valid (descriptors : Descriptors) (s : State) : Prop where
  code : descriptors.code s.segments.cs = some s.cpl
  data : descriptors.usable s.cpl s.segments.ds = true
  regular : Flags.Regular s.eflags
  outer : s.cpl ≠ 0 → descriptors.data s.segments.ss = some s.cpl ∧
    Selector.rpl s.segments.ss = s.cpl
  stack : s.cpl ≠ 0 → descriptors.data s.ss0 = some 0 ∧ s.ss0.rpl = 0

section Transparent

variable {cpu : Cpu} {labels : Labels} {s t : State} {vector dpl : Nat} {code : Word}

theorem Valid.returnable {descriptors : Descriptors} (valid : Valid descriptors s) :
    Returnable descriptors s.cpl (frameOf s vector code) := by
  have cs : ((s.segments.cs.setWidth 32).setWidth 16 : Selector) = s.segments.cs := by simp
  have ss : ((s.segments.ss.setWidth 32).setWidth 16 : Selector) = s.segments.ss := by simp
  have ds : ((lowHalf s.registers.eax s.segments.ds).setWidth 16 : Selector) = s.segments.ds :=
    setWidth_lowHalf
  refine { code := ?_, rpl := ?_, data := ?_, isProtected := valid.regular.isProtected, outer := ?_ }
  · simp only [frameOf, cs]
    exact valid.code
  · simp only [frameOf, cs]
    rfl
  · simp only [frameOf, ds]
    exact valid.data
  · simp only [frameOf, ss]
    exact valid.outer

theorem Valid.returnable_eax {descriptors : Descriptors} {value : Word}
    (valid : Valid descriptors s) :
    Returnable descriptors s.cpl (Function.update (frameOf s vector code) .eax value) := by
  have back : Returnable descriptors s.cpl (frameOf s vector code) := valid.returnable
  exact { code := back.code, rpl := back.rpl, data := back.data, isProtected := back.isProtected
          outer := back.outer }

/-- All data segments are what `ds` was. -/
def dataFromDs (s : State) : Segments :=
  let ds := cleared s.cpl s.segments.ds
  { s.segments with ds, es := ds, fs := ds, gs := ds }

/-- The interrupted state with another value in `eax`. -/
def resumed (s t : State) (value : Word) : State :=
  { t with
    registers := { s.registers with eax := value }
    segments := dataFromDs s
    eip := s.eip
    eflags := s.eflags }

theorem returned_eax {descriptors : Descriptors} {value : Word} (valid : Valid descriptors s)
    (handled : Handled labels s t s.cpl (Function.update (frameOf s vector code) .eax value)) :
    returned { t with registers := { t.registers with esp := frameAddress s } } s.cpl
        (Function.update (frameOf s vector code) .eax value) = resumed s t value := by
  have flags : Flags.restore 0 t.eflags s.eflags = s.eflags :=
    handled.regular.restore valid.regular
  have cs : ((s.segments.cs.setWidth 32).setWidth 16 : Selector) = s.segments.cs := by simp
  have ss : ((s.segments.ss.setWidth 32).setWidth 16 : Selector) = s.segments.ss := by simp
  simp only [returned, resumed, dataFromDs, Function.update_apply, reduceCtorEq, if_false, if_true,
    frameOf, setWidth_lowHalf, cs, ss, flags]
  by_cases inner : s.cpl = 0
  · have esp : frameAddress s + 56 = s.registers.esp := by
      rw [frameAddress, stackTop, if_pos inner, if_pos inner]
      bv_omega
    have old : t.segments.ss = s.segments.ss := by rw [handled.ss, if_pos inner]
    simp only [inner, if_true, esp, old]
  · simp only [inner, if_false]

/-- The code of a vector expects an error code just when the processor pushes one, except for the
exceptions 9 and 17, and for the vectors of other exceptions when no exception raises them. -/
theorem errorOf_eq {cause : Cause} (exception : cause = .exception → vector ≠ 9 ∧ vector ≠ 17)
    (other : cause ≠ .exception → ¬ HasError vector) :
    errorOf cause vector code = if HasError vector then some code else none := by
  have same : cause = .exception ∧ PushesError vector ↔ HasError vector := by
    simp only [PushesError, HasError] at *
    by_cases raised : cause = .exception
    · have different := exception raised
      simp only [raised, true_and]
      omega
    · simp only [raised, false_and, false_iff]
      exact other raised
  simp only [errorOf, same]

/-- An interrupt whose handler leaves the frame as it is comes back to the state it has
interrupted, except that `es`, `fs` and `gs` are now what `ds` is. -/
theorem interrupt_returns (loaded : Loaded cpu labels) (kernel : KernelSegments cpu.descriptors)
    (cause : Cause) (known : vector < 256)
    (exception : cause = .exception → vector ≠ 9 ∧ vector ≠ 17)
    (other : cause ≠ .exception → ¬ HasError vector) (valid : Valid cpu.descriptors s) :
    ∃ d entering,
      cpu.deliver s (intrGate labels vector dpl) (errorOf cause vector code) = some d ∧
      cpu.run entering d = some (trapEntered labels s vector code) ∧
      (trapEntered labels s vector code).Stack
        (labels.afterTrap :: frameAddress s :: onStack s.cpl (frameOf s vector code)) ∧
      ∀ t, Handled labels s t s.cpl (frameOf s vector code) → ∃ leaving, cpu.run leaving t = some
        { t with
          registers := s.registers
          segments := dataFromDs s
          eip := s.eip
          eflags := s.eflags } := by
  obtain ⟨entering, entered⟩ := trap_entered loaded kernel known
  refine ⟨_, entering, errorOf_eq exception other ▸ deliver_done kernel valid.stack, entered,
    trapEntered_stack, fun t handled => ?_⟩
  have same : Function.update (frameOf s vector code) .eax s.registers.eax = frameOf s vector code :=
    Function.update_eq_self .eax (frameOf s vector code)
  have back : Returnable cpu.descriptors s.cpl (frameOf s vector code) := valid.returnable
  rw [← same] at handled back
  obtain ⟨leaving, done⟩ := handled_run loaded handled back
  exact ⟨leaving, done.trans (congrArg some (returned_eax valid handled))⟩

end Transparent

/-- Four bytes for every vector, and the rest of `intr.S` at `0x8000`. -/
def placedLabels : Labels where
  intr := fun vector => 0x10000 + BitVec.ofNat 32 (4 * vector)
  myPush := 0x8000
  afterTrap := 0x800A
  procAfter := 0x800B
  contextToIntr := 0x8013
  trap := 0x9000

def placedCode : List Instr :=
  myPush placedLabels ++ [.op (.pop .esp)] ++ procAfter ++ [.jmp placedLabels.procAfter]

/-- A processor with the code of `intr.S`, and `more` after it. -/
def placedCpu (more : List Instr) : Cpu where
  descriptors :=
    { data := fun selector => if selector = 16 then some 0 else if selector = 35 then some 3 else none
      code := fun selector => if selector = 8 then some 0 else if selector = 27 then some 3 else none
      readableCode := fun selector =>
        if selector = 8 then some 0 else if selector = 27 then some 3 else none }
  gate := fun _ => none
  instr := fun a =>
    let place := (a - 0x10000).toNat
    if place < 1024 then
      (intr placedLabels (place / 4))[place % 4]?.map fun instr => (instr, a + 1)
    else Cpu.listing 0x8000 (placedCode ++ more) a

theorem placedCpu_kernel {more : List Instr} : KernelSegments (placedCpu more).descriptors :=
  ⟨rfl, rfl⟩

theorem placedCpu_instr {more : List Instr} {vector i : Nat} (known : vector < 256) (inside : i < 4) :
    (placedCpu more).instr (placedLabels.intr vector + BitVec.ofNat 32 i) =
      (intr placedLabels vector)[i]?.map fun instr =>
        (instr, placedLabels.intr vector + BitVec.ofNat 32 i + 1) := by
  have place : (placedLabels.intr vector + BitVec.ofNat 32 i - 0x10000).toNat = 4 * vector + i := by
    simp only [placedLabels]
    bv_omega
  have number : (4 * vector + i) / 4 = vector := by omega
  have offset : (4 * vector + i) % 4 = i := by omega
  simp only [placedCpu, place, number, offset]
  rw [if_pos (by omega)]

theorem placedCpu_intr {more : List Instr} {vector : Nat} (known : vector < 256) :
    ∃ b, (placedCpu more).CodeAt (placedLabels.intr vector) (intr placedLabels vector) b := by
  have first := @placedCpu_instr more vector 0 known (by decide)
  have second := @placedCpu_instr more vector 1 known (by decide)
  have third := @placedCpu_instr more vector 2 known (by decide)
  have base : placedLabels.intr vector + BitVec.ofNat 32 0 = placedLabels.intr vector :=
    BitVec.add_zero _
  rw [base] at first
  by_cases error : HasError vector
  · simp only [intr, error, if_true, myIntError] at first second ⊢
    exact ⟨_, _, first, _, second, rfl⟩
  · simp only [intr, error, if_false, myIntNoError] at first second third ⊢
    have step : placedLabels.intr vector + BitVec.ofNat 32 1 + 1 =
        placedLabels.intr vector + BitVec.ofNat 32 2 := by bv_omega
    rw [step] at second
    exact ⟨_, _, first, _, second, _, third, rfl⟩

/-- The part of the code after `before`. -/
theorem placedCpu_code {more before block after : List Instr}
    (split : placedCode ++ more = before ++ (block ++ after))
    (short : (placedCode ++ more).length ≤ 0x8000) :
    (placedCpu more).CodeAt (0x8000 + BitVec.ofNat 32 before.length) block
      (0x8000 + BitVec.ofNat 32 (before.length + block.length)) := by
  rw [split] at short
  refine @Cpu.codeAt_listing _ 0x8000 before block after (fun i inside => ?_) (by omega)
  have outside : ¬ (0x8000 + BitVec.ofNat 32 i - 0x10000 : Address).toNat < 1024 := by bv_omega
  simp only [placedCpu, split]
  rw [if_neg outside]

theorem placedCpu_loaded {more : List Instr} (short : (placedCode ++ more).length ≤ 0x8000) :
    Loaded (placedCpu more) placedLabels := by
  have first := @placedCpu_code more [] (myPush placedLabels) ([.op (.pop .esp)] ++ procAfter ++
    [.jmp placedLabels.procAfter] ++ more)
    (by simp only [placedCode, List.append_assoc, List.nil_append]) short
  have second := @placedCpu_code more (myPush placedLabels) [.op (.pop .esp)]
    (procAfter ++ [.jmp placedLabels.procAfter] ++ more)
    (by simp only [placedCode, List.append_assoc]) short
  have third := @placedCpu_code more (myPush placedLabels ++ [.op (.pop .esp)]) procAfter
    ([.jmp placedLabels.procAfter] ++ more) (by simp only [placedCode, List.append_assoc]) short
  have fourth := @placedCpu_code more (myPush placedLabels ++ [.op (.pop .esp)] ++ procAfter)
    [.jmp placedLabels.procAfter] more (by simp only [placedCode, List.append_assoc]) short
  exact { intr := fun vector known => placedCpu_intr known
          myPush := first
          afterTrap := second
          procAfter := ⟨_, third⟩
          contextToIntr := ⟨_, fourth⟩ }

/-- A process of the user that is interrupted. -/
def userState : State where
  registers := { eax := 1, ecx := 2, edx := 3, ebx := 4, esp := 0xBFFF0000, ebp := 5, esi := 6, edi := 7 }
  segments := { cs := 27, ss := 35, ds := 35, es := 35, fs := 35, gs := 0 }
  eip := 0x400000
  eflags := 0x202
  cr3 := 0
  ss0 := 16
  esp0 := 0xC0200000
  memory := fun _ => 0

theorem userState_valid : Valid (placedCpu []).descriptors userState where
  code := by decide
  data := @usable_of_data _ _ 3 _ (by decide) (by decide) (by decide)
  regular := by decide
  outer := by decide
  stack := by decide

/-- A page fault of a process of the user, with its error code. -/
theorem interrupt_returns_userState : ∃ d entering,
    (placedCpu []).deliver userState (intrGate placedLabels 14 0) (some 6) = some d ∧
      (placedCpu []).run entering d = some (trapEntered placedLabels userState 14 6) ∧
      (trapEntered placedLabels userState 14 6).Stack
        (placedLabels.afterTrap :: frameAddress userState ::
          onStack userState.cpl (frameOf userState 14 6)) ∧
      ∀ t, Handled placedLabels userState t userState.cpl (frameOf userState 14 6) →
        ∃ leaving, (placedCpu []).run leaving t = some { t with
          registers := userState.registers
          segments := { userState.segments with es := 35, fs := 35, gs := 35 }
          eip := 0x400000
          eflags := 0x202 } :=
  interrupt_returns (placedCpu_loaded (by decide)) placedCpu_kernel .exception (by decide)
    (by decide) (by decide) userState_valid

end WindOs.Idt
