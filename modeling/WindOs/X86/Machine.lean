import WindOs.X86.Memory

namespace WindOs.X86

/-! # A processor of 32 bits

The registers, the data and code segments of a flat address space, two privilege levels with the
stack of the inner one in the task state segment, and the instructions that the code of a trap or
of a context switch is written with.  An instruction that would fault has no step.
-/

inductive Reg where
  | eax | ecx | edx | ebx | esp | ebp | esi | edi
deriving DecidableEq, Repr

structure Registers where
  eax : Word
  ecx : Word
  edx : Word
  ebx : Word
  esp : Word
  ebp : Word
  esi : Word
  edi : Word
deriving DecidableEq, Repr

namespace Registers

def get (registers : Registers) : Reg → Word
  | .eax => registers.eax
  | .ecx => registers.ecx
  | .edx => registers.edx
  | .ebx => registers.ebx
  | .esp => registers.esp
  | .ebp => registers.ebp
  | .esi => registers.esi
  | .edi => registers.edi

def set (registers : Registers) (reg : Reg) (word : Word) : Registers :=
  match reg with
  | .eax => { registers with eax := word }
  | .ecx => { registers with ecx := word }
  | .edx => { registers with edx := word }
  | .ebx => { registers with ebx := word }
  | .esp => { registers with esp := word }
  | .ebp => { registers with ebp := word }
  | .esi => { registers with esi := word }
  | .edi => { registers with edi := word }

end Registers

abbrev Selector : Type := BitVec 16

/-- The privilege in a selector. -/
def Selector.rpl (selector : Selector) : Nat := selector.toNat % 4

/-- The data segments that `mov` can load. -/
inductive Segment where
  | ds | es | fs | gs
deriving DecidableEq, Repr

structure Segments where
  cs : Selector
  ss : Selector
  ds : Selector
  es : Selector
  fs : Selector
  gs : Selector
deriving DecidableEq, Repr

namespace Segments

def get (segments : Segments) : Segment → Selector
  | .ds => segments.ds
  | .es => segments.es
  | .fs => segments.fs
  | .gs => segments.gs

def set (segments : Segments) (segment : Segment) (selector : Selector) : Segments :=
  match segment with
  | .ds => { segments with ds := selector }
  | .es => { segments with es := selector }
  | .fs => { segments with fs := selector }
  | .gs => { segments with gs := selector }

end Segments

/-- Of the task state segment only the stack of the inner privilege level is used. -/
@[ext] structure State where
  registers : Registers
  segments : Segments
  eip : Word
  eflags : Word
  cr3 : Word
  ss0 : Selector
  esp0 : Word
  memory : Memory

/-- The operations after which the next instruction follows. -/
inductive Op where
  | movAbs (address : Address) (dst : Reg)
  | movLoad (disp : Word) (base dst : Reg)
  | movStore (src : Reg) (disp : Word) (base : Reg)
  | movImm16 (imm : BitVec 16) (dst : Reg)
  | movFromSegment (segment : Segment) (dst : Reg)
  | movToSegment (src : Reg) (segment : Segment)
  | movReg (src dst : Reg)
  | addImm (imm : Word) (dst : Reg)
  | subImm (imm : Word) (dst : Reg)
  | push (src : Reg)
  | pushImm (imm : Word)
  | pushMem (disp : Word) (base : Reg)
  | pop (dst : Reg)
  | popMem (disp : Word) (base : Reg)
  | pusha
  | popa
deriving DecidableEq, Repr

inductive Instr where
  | op (op : Op)
  | jmp (target : Address)
  | call (target : Address)
  | callReg (target : Reg)
  | ret
  | int (vector : Nat)
  | iret
deriving DecidableEq, Repr

/-- The privilege of the data or code segment that a selector names, if it names one.  A code segment
may be readable as well. -/
structure Descriptors where
  data : Selector → Option Nat
  code : Selector → Option Nat
  readableCode : Selector → Option Nat

/-- An interrupt gate has interrupts off in its handler, a trap gate has not. -/
structure Gate where
  offset : Address
  selector : Selector
  dpl : Nat
  isTrap : Bool

/-- What the steps do not change: the descriptor tables and the code, in which every instruction
has the address after it. -/
structure Cpu where
  descriptors : Descriptors
  gate : Nat → Option Gate
  instr : Address → Option (Instr × Address)

namespace Flags

/-- The flags that `iret` may set when the privilege is `cpl` and the flags are `old`. -/
def writable (cpl : Nat) (old : Word) : Word :=
  0x254DD5 ||| (if cpl = 0 then 0x183000 else 0) |||
    (if cpl ≤ (old >>> 12 &&& 3).toNat then 0x200 else 0)

def restore (cpl : Nat) (old new : Word) : Word :=
  old &&& ~~~ writable cpl old ||| new &&& writable cpl old

/-- Virtual mode is off. -/
def isProtected (flags : Word) : Bool := flags &&& 0x20000 = 0

/-- `iret` would return to another task. -/
def isNested (flags : Word) : Bool := flags &&& 0x4000 ≠ 0

/-- The flags in a handler: no tracing, nested task, resume and virtual mode. -/
def entered (flags : Word) (isTrap : Bool) : Word :=
  flags &&& ~~~ (if isTrap then 0x34100 else 0x34300)

/-- The carry, parity, adjust, zero, sign and overflow flags of a result. -/
def arithmetic (flags : Word) (carry overflow adjust : Bool) (result : Word) : Word :=
  let parity := (List.range 8).foldl (fun even i => even != result.getLsbD i) true
  let bit (set : Bool) (place : Nat) : Word := if set then 1 <<< place else 0
  flags &&& ~~~ 0x8D5 ||| bit carry 0 ||| bit parity 2 ||| bit adjust 4 |||
    bit (result = 0) 6 ||| bit result.msb 7 ||| bit overflow 11

@[irreducible] def add (flags a b : Word) : Word :=
  arithmetic flags (BitVec.uaddOverflow a b) (BitVec.saddOverflow a b)
    (16 ≤ a.toNat % 16 + b.toNat % 16) (a + b)

@[irreducible] def sub (flags a b : Word) : Word :=
  arithmetic flags (BitVec.usubOverflow a b) (BitVec.ssubOverflow a b)
    (a.toNat % 16 < b.toNat % 16) (a - b)

end Flags

namespace State

variable {s : State}

/-- The current privilege. -/
def cpl (s : State) : Nat := s.segments.cs.rpl

def get (s : State) (reg : Reg) : Word := s.registers.get reg

def set (s : State) (reg : Reg) (word : Word) : State :=
  { s with registers := s.registers.set reg word }

def push (s : State) (word : Word) : State :=
  { s with
    registers := { s.registers with esp := s.registers.esp - 4 }
    memory := s.memory.store (s.registers.esp - 4) word }

def pushAll (s : State) (words : List Word) : State := words.foldl push s

/-- The word on the top of the stack. -/
def top (s : State) : Word := s.memory.load s.registers.esp

/-- Leave out some words of the stack. -/
def discard (s : State) (bytes : Word) : State :=
  { s with registers := { s.registers with esp := s.registers.esp + bytes } }

def pusha (s : State) : State :=
  let r := s.registers
  (((((((s.push r.eax).push r.ecx).push r.edx).push r.ebx).push r.esp).push r.ebp).push r.esi).push r.edi

def popa (s : State) : State :=
  let word (i : Word) : Word := s.memory.load (s.registers.esp + i)
  { s with
    registers :=
      { edi := word 0, esi := word 4, ebp := word 8, ebx := word 16, edx := word 20, ecx := word 24,
        eax := word 28, esp := s.registers.esp + 32 } }

end State

namespace Descriptors

variable (descriptors : Descriptors)

/-- The privilege of a segment that a data segment register can be loaded with. -/
def readable (selector : Selector) : Option Nat :=
  match descriptors.data selector with
  | some dpl => some dpl
  | none => descriptors.readableCode selector

/-- A data segment register may hold this at that privilege. -/
@[irreducible] def usable (cpl : Nat) (selector : Selector) : Bool :=
  selector.toNat / 4 = 0 ||
    match descriptors.readable selector with
    | none => false
    | some dpl => cpl ≤ dpl && selector.rpl ≤ dpl

/-- What `iret` leaves in a data segment register when it lowers the privilege. -/
@[irreducible] def keptAt (cpl : Nat) (selector : Selector) : Selector :=
  if selector.toNat / 4 = 0 then 0
  else match descriptors.readable selector with
    | none => 0
    | some dpl => if cpl ≤ dpl then selector else 0

end Descriptors

/-- What makes the processor take an interrupt. -/
inductive Cause where
  | exception | device | instruction
deriving DecidableEq, Repr

/-- The exceptions that have an error code. -/
def PushesError (vector : Nat) : Prop := vector = 8 ∨ 10 ≤ vector ∧ vector ≤ 14 ∨ vector = 17

instance {vector : Nat} : Decidable (PushesError vector) := inferInstanceAs (Decidable (_ ∨ _ ∨ _))

/-- Only an exception pushes its error code, never a device or the instruction `int`. -/
def errorOf (cause : Cause) (vector : Nat) (code : Word) : Option Word :=
  if cause = .exception ∧ PushesError vector then some code else none

/-- The low half of a word is replaced. -/
def lowHalf (word : Word) (half : BitVec 16) : Word := word.extractLsb' 16 16 ++ half

namespace Cpu

variable (cpu : Cpu)

def op (s : State) : Op → Option State
  | .movAbs address dst => some (s.set dst (s.memory.load address))
  | .movLoad disp base dst => some (s.set dst (s.memory.load (s.get base + disp)))
  | .movStore src disp base =>
      some { s with memory := s.memory.store (s.get base + disp) (s.get src) }
  | .movImm16 imm dst => some (s.set dst (lowHalf (s.get dst) imm))
  | .movFromSegment segment dst => some (s.set dst (lowHalf (s.get dst) (s.segments.get segment)))
  | .movToSegment src segment =>
      let selector := (s.get src).setWidth 16
      match cpu.descriptors.usable s.cpl selector with
      | true => some { s with segments := s.segments.set segment selector }
      | false => none
  | .movReg src dst => some (s.set dst (s.get src))
  | .addImm imm dst =>
      some { s.set dst (s.get dst + imm) with eflags := Flags.add s.eflags (s.get dst) imm }
  | .subImm imm dst =>
      some { s.set dst (s.get dst - imm) with eflags := Flags.sub s.eflags (s.get dst) imm }
  | .push src => some (s.push (s.get src))
  | .pushImm imm => some (s.push imm)
  | .pushMem disp base => some (s.push (s.memory.load (s.get base + disp)))
  | .pop dst => some ((s.discard 4).set dst s.top)
  | .popMem disp base =>
      let t := s.discard 4
      some { t with memory := t.memory.store (t.get base + disp) s.top }
  | .pusha => some s.pusha
  | .popa => some s.popa

/-- The processor takes an interrupt, which may have an error code. -/
def deliver (s : State) (gate : Gate) (error : Option Word) : Option State :=
  match cpu.descriptors.code gate.selector with
  | some 0 =>
      let saved (t : State) : State :=
        let t := ((t.push s.eflags).push (s.segments.cs.setWidth 32)).push s.eip
        let t := match error with
          | none => t
          | some code => t.push code
        { t with
          segments := { t.segments with cs := BitVec.ofNat 16 (gate.selector.toNat / 4 * 4) }
          eip := gate.offset
          eflags := Flags.entered s.eflags gate.isTrap }
      if s.cpl = 0 then some (saved s)
      else if cpu.descriptors.data s.ss0 = some 0 ∧ s.ss0.rpl = 0 then
        let t := { s with
          registers := { s.registers with esp := s.esp0 }
          segments := { s.segments with ss := s.ss0 } }
        some (saved ((t.push (s.segments.ss.setWidth 32)).push s.registers.esp))
      else none
  | _ => none

def iret (s : State) : Option State :=
  let word (i : Word) : Word := s.memory.load (s.registers.esp + i)
  let cs : Selector := (word 4).setWidth 16
  if ¬ Flags.isNested s.eflags ∧ Flags.isProtected (word 8) ∧ s.cpl ≤ cs.rpl ∧
      cpu.descriptors.code cs = some cs.rpl then
    let t := { s.discard 12 with
      segments := { s.segments with cs }
      eip := word 0
      eflags := Flags.restore s.cpl s.eflags (word 8) }
    if cs.rpl = s.cpl then some t
    else
      let ss : Selector := (word 16).setWidth 16
      if cpu.descriptors.data ss = some cs.rpl ∧ ss.rpl = cs.rpl then
        let kept := cpu.descriptors.keptAt cs.rpl
        some { t with
          registers := { t.registers with esp := word 12 }
          segments :=
            { cs, ss, ds := kept s.segments.ds, es := kept s.segments.es, fs := kept s.segments.fs,
              gs := kept s.segments.gs } }
      else none
  else none

/-- One instruction, when `next` is the address after it. -/
def exec (s : State) (next : Address) : Instr → Option State
  | .op op => (cpu.op s op).map fun t => { t with eip := next }
  | .jmp target => some { s with eip := target }
  | .call target => some { s.push next with eip := target }
  | .callReg target => some { s.push next with eip := s.get target }
  | .ret => some { s.discard 4 with eip := s.top }
  | .int vector =>
      match cpu.gate vector with
      | none => none
      | some gate => if s.cpl ≤ gate.dpl then cpu.deliver { s with eip := next } gate none else none
  | .iret => cpu.iret s

def step (s : State) : Option State :=
  match cpu.instr s.eip with
  | none => none
  | some (instr, next) => cpu.exec s next instr

def run : Nat → State → Option State
  | 0, s => some s
  | count + 1, s => (cpu.step s).bind (run count)

/-- The instructions of a list are one after another from one address to the other. -/
def CodeAt : Address → List Instr → Address → Prop
  | a, [], b => a = b
  | a, instr :: rest, b => ∃ next, cpu.instr a = some (instr, next) ∧ CodeAt next rest b

/-- Run operations one after another. -/
def ops : List Op → State → Option State
  | [], s => some s
  | op :: rest, s => (cpu.op s op).bind (ops rest)

end Cpu

end WindOs.X86
