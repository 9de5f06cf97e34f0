import WindOs.X86.Run

namespace WindOs.Proc

open X86

/-! # Switching from one process to another

`switch_to` returns on the stack of another process.  Seen from the process that calls it, it is
a function that returns late: with its registers, and on its own stack, which nobody else has
written.
-/

/-- `struct context` -/
structure Context where
  eip : Word
  ebx : Word
  ecx : Word
  edx : Word
  esi : Word
  edi : Word
  ebp : Word
  esp : Word
deriving DecidableEq, Repr

/-- `sizeof(struct context)` -/
def sizeofContext : Nat := 32

namespace Context

def words (context : Context) : List Word :=
  [context.eip, context.ebx, context.ecx, context.edx, context.esi, context.edi, context.ebp,
    context.esp]

theorem length_words {context : Context} : context.words.length = 8 := rfl

/-- Where the caller of `switch_to` goes on. -/
def ofCaller (s : State) : Context :=
  { eip := s.top
    ebx := s.registers.ebx
    ecx := s.registers.ecx
    edx := s.registers.edx
    esi := s.registers.esi
    edi := s.registers.edi
    ebp := s.registers.ebp
    esp := s.registers.esp + 4 }

/-- The registers that `switch_to` brings back. -/
def ofState (s : State) : Context :=
  { eip := s.eip
    ebx := s.registers.ebx
    ecx := s.registers.ecx
    edx := s.registers.edx
    esi := s.registers.esi
    edi := s.registers.edi
    ebp := s.registers.ebp
    esp := s.registers.esp }

end Context

/-- The half of `switch_to` that runs on the stack of the old process. -/
def saveOps : List Op :=
  [.movLoad 4 .esp .eax,
    .popMem 0 .eax,
    .movStore .ebx 4 .eax,
    .movStore .ecx 8 .eax,
    .movStore .edx 12 .eax,
    .movStore .esi 16 .eax,
    .movStore .edi 20 .eax,
    .movStore .ebp 24 .eax,
    .movStore .esp 28 .eax]

def restoreOps : List Op :=
  [.movLoad 4 .esp .eax,
    .movLoad 28 .eax .esp,
    .movLoad 24 .eax .ebp,
    .movLoad 20 .eax .edi,
    .movLoad 16 .eax .esi,
    .movLoad 12 .eax .edx,
    .movLoad 8 .eax .ecx,
    .movLoad 4 .eax .ebx,
    .pushMem 0 .eax]

/-- `switch_to` -/
def switchTo : List Instr := (saveOps ++ restoreOps).map .op ++ [.ret]

section Code

variable {cpu : Cpu} {s t : State} {prev next ret b : Address} {into : Context}

/-- The state in which `switch_to` returns. -/
def switched (s : State) (prev next : Address) (into : Context) : State :=
  { s with
    registers :=
      { eax := next, ebx := into.ebx, ecx := into.ecx, edx := into.edx, esi := into.esi, edi := into.edi,
        ebp := into.ebp, esp := into.esp }
    eip := into.eip
    memory := (s.memory.storeAll prev (Context.ofCaller s).words).store (into.esp - 4) into.eip }

theorem saveOps_done (first : s.memory.load (s.registers.esp + 4) = prev) :
    cpu.ops saveOps s = some { s with
      registers := { s.registers with eax := prev, esp := s.registers.esp + 4 }
      memory := s.memory.storeAll prev (Context.ofCaller s).words } := by
  subst first
  simp only [saveOps, Cpu.ops, Cpu.op, State.get, State.set, State.discard, State.top, Registers.get,
    Registers.set, Option.bind_some, Context.words, Context.ofCaller, Memory.storeAll,
    BitVec.ofNat_eq_ofNat, BitVec.add_zero, BitVec.add_assoc, BitVec.reduceAdd]

theorem restoreOps_done (second : s.memory.load (s.registers.esp + 4) = next)
    (kept : s.memory.Holds next into.words) :
    cpu.ops restoreOps s = some { s with
      registers :=
        { eax := next, ebx := into.ebx, ecx := into.ecx, edx := into.edx, esi := into.esi, edi := into.edi,
          ebp := into.ebp, esp := into.esp - 4 }
      memory := s.memory.store (into.esp - 4) into.eip } := by
  subst second
  simp only [Context.words, Memory.Holds, BitVec.ofNat_eq_ofNat, BitVec.add_assoc,
    BitVec.reduceAdd] at kept
  obtain ⟨eip, ebx, ecx, edx, esi, edi, ebp, esp, -⟩ := kept
  simp only [restoreOps, Cpu.ops, Cpu.op, State.get, State.set, State.push, Registers.get,
    Registers.set, Option.bind_some, BitVec.ofNat_eq_ofNat, BitVec.add_zero, eip, ebx, ecx, edx,
    esi, edi, ebp, esp]

/-- What `switch_to` does when the two contexts and the three words on the stack are apart. -/
theorem switchTo_run (code : cpu.CodeAt s.eip switchTo b) (stack : s.Stack [ret, prev, next])
    (kept : s.memory.Holds next into.words)
    (apart : Apart next sizeofContext prev sizeofContext)
    (outside : Apart s.registers.esp 12 prev sizeofContext) :
    cpu.run switchTo.length s = some (switched s prev next into) := by
  have size : 4 * (Context.ofCaller s).words.length ≤ 2 ^ 32 := by
    rw [Context.length_words]
    decide
  let memory : Memory := s.memory.storeAll prev (Context.ofCaller s).words
  have arguments : memory.Holds s.registers.esp [ret, prev, next] :=
    Memory.Holds.storeAll_of_apart stack outside size
  have context : memory.Holds next into.words := kept.storeAll_of_apart apart size
  obtain ⟨last, code, steps⟩ := Cpu.run_block code rfl (by
    rw [Cpu.ops_append, saveOps_done stack.tail.head, Option.bind_some]
    refine restoreOps_done ?_ context
    exact arguments.tail.tail.head)
  refine Cpu.run_trans steps (Cpu.run_one code.last ?_)
  simp only [Cpu.exec, State.top, State.discard, switched, Memory.load_store_self,
    BitVec.sub_add_cancel]

end Code

end WindOs.Proc
