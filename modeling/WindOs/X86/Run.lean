import WindOs.X86.Machine

namespace WindOs.X86

/-! # Runs of the processor

A block of plain instructions runs as its list does, wherever it lies.
-/

namespace Cpu

variable {cpu : Cpu} {s t u : State} {a b : Address} {instr : Instr} {rest : List Instr}

theorem run_add {first second : Nat} :
    cpu.run (first + second) s = (cpu.run first s).bind (cpu.run second) := by
  induction first generalizing s with
  | zero => rw [Nat.zero_add, run, Option.bind_some]
  | succ first ih =>
      rw [Nat.add_right_comm, run, run]
      cases cpu.step s with
      | none => rfl
      | some middle => exact ih

/-- One run after another. -/
theorem run_trans {first second : Nat} (done : cpu.run first s = some t)
    (after : cpu.run second t = some u) : cpu.run (first + second) s = some u := by
  rw [run_add, done, Option.bind_some, after]

theorem CodeAt.last (code : cpu.CodeAt a [instr] b) : cpu.instr a = some (instr, b) := by
  obtain ⟨next, found, same⟩ := code
  cases same
  exact found

/-- Where code lies does not depend on the descriptor tables. -/
theorem CodeAt.congr {other : Cpu} {code : List Instr} (found : cpu.CodeAt a code b)
    (same : other.instr = cpu.instr) : other.CodeAt a code b := by
  induction code generalizing a with
  | nil => exact found
  | cons instr rest ih =>
      obtain ⟨next, here, found⟩ := found
      exact ⟨next, same ▸ here, ih found⟩

theorem run_one {next : Address} (found : cpu.instr s.eip = some (instr, next))
    (done : cpu.exec s next instr = some t) : cpu.run 1 s = some t := by
  simp only [run, step, found, done, Option.bind_some]

/-- An operation neither uses nor changes `eip`. -/
theorem op_eip {op : Op} {eip : Word} :
    cpu.op { s with eip } op = (cpu.op s op).map fun t => { t with eip } := by
  cases op with
  | movToSegment src segment =>
      simp only [Cpu.op, State.get, State.cpl]
      cases cpu.descriptors.usable s.segments.cs.rpl ((s.registers.get src).setWidth 16) with
      | true => rfl
      | false => rfl
  | _ => rfl

theorem ops_eip {block : List Op} {eip : Word} :
    cpu.ops block { s with eip } = (cpu.ops block s).map fun t => { t with eip } := by
  induction block generalizing s with
  | nil => rfl
  | cons op block ih =>
      simp only [ops, op_eip]
      cases cpu.op s op with
      | none => rfl
      | some middle => exact ih

/-- A block runs wherever it lies, up to the instructions after it. -/
theorem run_block {block : List Op} (code : cpu.CodeAt a (block.map .op ++ rest) b)
    (here : s.eip = a) (done : cpu.ops block s = some t) :
    ∃ next, cpu.CodeAt next rest b ∧ cpu.run block.length s = some { t with eip := next } := by
  induction block generalizing s t a with
  | nil =>
      obtain rfl := Option.some.inj done
      subst here
      exact ⟨s.eip, code, rfl⟩
  | cons op block ih =>
      obtain ⟨next, found, code⟩ := code
      obtain ⟨middle, first, others⟩ := Option.bind_eq_some_iff.mp done
      subst here
      have moved : cpu.step s = some { middle with eip := next } := by
        simp only [step, found, exec, first, Option.map_some]
      have following : cpu.ops block { middle with eip := next } = some { t with eip := next } := by
        rw [ops_eip, others, Option.map_some]
      obtain ⟨last, code, steps⟩ := ih code rfl following
      refine ⟨last, code, ?_⟩
      rw [List.length_cons, run, moved, Option.bind_some, steps]

theorem ops_append {first second : List Op} :
    cpu.ops (first ++ second) s = (cpu.ops first s).bind (cpu.ops second) := by
  induction first generalizing s with
  | nil => rfl
  | cons op first ih =>
      simp only [List.cons_append, ops]
      cases cpu.op s op with
      | none => rfl
      | some middle => exact ih

/-- Code in which every instruction takes one byte. -/
def listing (entry : Address) (code : List Instr) (a : Address) : Option (Instr × Address) :=
  code[(a - entry).toNat]?.map fun instr => (instr, a + 1)

/-- A part of a listing is where the instructions before it end. -/
theorem codeAt_listing {entry : Address} {before block after : List Instr}
    (found : ∀ i < (before ++ (block ++ after)).length, cpu.instr (entry + BitVec.ofNat 32 i) =
      listing entry (before ++ (block ++ after)) (entry + BitVec.ofNat 32 i))
    (short : (before ++ (block ++ after)).length < 2 ^ 32) :
    cpu.CodeAt (entry + BitVec.ofNat 32 before.length) block
      (entry + BitVec.ofNat 32 (before.length + block.length)) := by
  induction block generalizing before with
  | nil => rfl
  | cons instr block ih =>
      have whole : before ++ (instr :: block ++ after) = before ++ [instr] ++ (block ++ after) := by
        simp only [List.append_assoc, List.cons_append, List.nil_append]
      rw [whole] at found short
      have small : before.length < 2 ^ 32 := by
        simp only [List.length_append, List.length_cons] at short
        omega
      have offset : (entry + BitVec.ofNat 32 before.length - entry).toNat = before.length := by
        bv_omega
      have next : entry + BitVec.ofNat 32 before.length + 1 =
          entry + BitVec.ofNat 32 (before ++ [instr]).length := by
        rw [List.length_append, List.length_singleton]
        bv_omega
      have size : (before ++ [instr]).length + block.length = before.length + (block.length + 1) := by
        simp only [List.length_append, List.length_singleton]
        omega
      have rest := ih found short
      rw [size] at rest
      refine ⟨entry + BitVec.ofNat 32 before.length + 1, ?_, ?_⟩
      · have inside : before.length < (before ++ [instr] ++ (block ++ after)).length := by
          simp only [List.length_append, List.length_singleton]
          omega
        rw [found before.length inside, listing, offset]
        simp
      · rwa [next]

end Cpu

namespace State

variable {s : State} {word : Word} {words : List Word} {reg : Reg}

theorem pushAll_eq : s.pushAll words = { s with
    registers := { s.registers with esp := s.registers.esp - BitVec.ofNat 32 (4 * words.length) }
    memory := s.memory.pushAll s.registers.esp words } := by
  induction words generalizing s with
  | nil =>
      have same : s.registers.esp - BitVec.ofNat 32 (4 * 0) = s.registers.esp := by bv_omega
      simp only [pushAll, List.foldl_nil, List.length_nil, same, Memory.pushAll]
  | cons word words ih =>
      have esp : s.registers.esp - 4 - BitVec.ofNat 32 (4 * words.length) =
          s.registers.esp - BitVec.ofNat 32 (4 * (words.length + 1)) := by bv_omega
      refine (ih (s := s.push word)).trans ?_
      simp only [push, esp, List.length_cons, Memory.pushAll]

theorem pushAll_concat : s.pushAll (words ++ [word]) = (s.pushAll words).push word := by
  rw [pushAll, List.foldl_append]
  rfl

/-- The words on the stack, the top first. -/
def Stack (s : State) (words : List Word) : Prop := s.memory.Holds s.registers.esp words

theorem Stack.push (stack : s.Stack words) (short : 4 * (words.length + 1) ≤ 2 ^ 32) :
    (s.push word).Stack (word :: words) :=
  Memory.Holds.push stack short

theorem Stack.top (stack : s.Stack (word :: words)) : s.top = word := stack.head

theorem Stack.pushAll {old : List Word} (stack : s.Stack old)
    (short : 4 * (words.length + old.length) ≤ 2 ^ 32) :
    (s.pushAll words).Stack (words.reverse ++ old) := by
  rw [pushAll_eq]
  exact Memory.Holds.pushAll stack short

end State

namespace Flags

variable {flags a b mask part new : Word}

theorem and_eq_zero (inside : part &&& 0x8D5 = part) (outside : mask &&& 0x8D5 = 0) :
    part &&& mask = 0 := by
  rw [← inside, BitVec.and_assoc, BitVec.and_comm 0x8D5, outside]
  exact BitVec.and_zero

/-- The arithmetic flags are all in `0x8D5`. -/
theorem arithmetic_and {carry overflow adjust : Bool} {result : Word}
    (outside : mask &&& 0x8D5 = 0) :
    arithmetic flags carry overflow adjust result &&& mask = flags &&& mask := by
  have bit {set : Bool} {place : Nat} (inside : (1 <<< place : Word) &&& 0x8D5 = 1 <<< place) :
      (if set then 1 <<< place else 0 : Word) &&& mask = 0 := by
    cases set with
    | true => exact and_eq_zero inside outside
    | false => exact BitVec.zero_and
  have rest : flags &&& ~~~ 0x8D5 &&& mask = flags &&& mask := by
    ext i small
    have none := congrArg (fun word => word.getLsbD i) outside
    simp only [BitVec.getLsbD_and] at none
    simp only [BitVec.getElem_and, BitVec.getElem_not]
    grind
  simp only [arithmetic, BitVec.and_or_distrib_right, rest]
  rw [bit (by decide), bit (by decide), bit (by decide), bit (by decide), bit (by decide),
    bit (by decide)]
  simp only [BitVec.ofNat_eq_ofNat, BitVec.or_zero]

theorem add_and (outside : mask &&& 0x8D5 = 0) : add flags a b &&& mask = flags &&& mask := by
  unfold add
  exact arithmetic_and outside

theorem sub_and (outside : mask &&& 0x8D5 = 0) : sub flags a b &&& mask = flags &&& mask := by
  unfold sub
  exact arithmetic_and outside

theorem isNested_add : isNested (add flags a b) = isNested flags := by
  rw [isNested, isNested, add_and (by decide)]

/-- With all privileges `iret` takes every flag from the stack that it can set. -/
theorem restore_zero :
    restore 0 flags new = flags &&& ~~~ 0x3D7FD5 ||| new &&& 0x3D7FD5 := by
  have all : writable 0 flags = 0x3D7FD5 := by
    rw [writable, if_pos rfl, if_pos (Nat.zero_le _)]
    decide
  rw [restore, all]

/-- Reserved flags as they always are, and no virtual mode. -/
def Regular (flags : Word) : Prop := flags &&& ~~~ 0x3D7FD5 = 2

instance : Decidable (Regular flags) := inferInstanceAs (Decidable (_ = _))

theorem Regular.isProtected (regular : Regular flags) : Flags.isProtected flags = true := by
  have same : flags &&& 0x20000 = flags &&& ~~~ 0x3D7FD5 &&& 0x20000 := by
    rw [BitVec.and_assoc]
    rfl
  rw [Regular] at regular
  simp only [Flags.isProtected, same, regular]
  rfl

/-- Interrupts are on. -/
theorem Regular.interrupts (regular : Regular flags) : Regular (flags ||| 0x200) := by
  rw [Regular] at *
  rw [BitVec.and_or_distrib_right, regular]
  rfl

theorem Regular.sub (regular : Regular flags) : Regular (sub flags a b) := by
  rw [Regular, sub_and (by decide)]
  exact regular

theorem Regular.restore (regular : Regular flags) (new_regular : Regular new) :
    Flags.restore 0 flags new = new := by
  rw [Regular] at regular new_regular
  have all : (~~~ 0x3D7FD5 ||| 0x3D7FD5 : Word) = BitVec.allOnes 32 := by decide
  rw [restore_zero, regular, ← new_regular, ← BitVec.and_or_distrib_left, all, BitVec.and_allOnes]

theorem restore_add : restore 0 (add flags a b) new = restore 0 flags new := by
  rw [restore_zero, restore_zero, add_and (by decide)]

end Flags

end WindOs.X86
