import WindOs.Data.Loop
import WindOs.Data.Machine
import WindOs.Mm.PageAlloc
import WindOs.X86.Memory

namespace WindOs.Debug

open Data Mm X86

/-! # The backtrace of debug.c

A function begins with `pushl %ebp; movl %esp, %ebp`, so that the pointers on the stack lead from
every call to the one before it.  A kernel thread starts with 0 in `ebp`.
-/

/-- The members of `struct symtable_t` that are used. -/
structure Symbol where
  stName : Word
  stValue : Word
  stSize : Word
deriving DecidableEq

/-- `symtable_ptr` with its `symtable_num` symbols, and `strtab_ptr`. -/
structure SymbolTable where
  symbols : List Symbol
  strtab : Word

def Symbol.has (symbol : Symbol) (addr : Word) : Bool :=
  decide (symbol.stValue ≤ addr ∧ addr < symbol.stValue + symbol.stSize)

/-- `get_func_name`; `NULL` is 0. -/
def getFuncName (table : SymbolTable) (addr : Word) : Word :=
  match table.symbols.find? (·.has addr) with
  | some symbol => table.strtab + symbol.stName
  | none => 0

/-- Whether a line is printed for a return address. -/
def isPrinted (table : SymbolTable) (returnAddr : Word) : Bool :=
  decide (getFuncName table returnAddr ≠ 0 ∧ BitVec.ofNat 32 vertualMem ≤ returnAddr)

/-- One round of `print_backtrace`, with `ebp` and the lines so far: an address and the pointer to
its name. -/
def backtraceRound (table : SymbolTable) (memory : Memory) :
    Word × List (Word × Word) → (Word × List (Word × Word)) ⊕ List (Word × Word)
  | (ebp, lines) =>
      if ebp ≠ 0 then
        let returnAddr := memory.load (ebp + 4)
        let lines := if isPrinted table returnAddr then
            lines ++ [(returnAddr, getFuncName table returnAddr)]
          else lines
        .inl (memory.load ebp, lines)
      else .inr lines

def printBacktrace (fuel : Nat) (table : SymbolTable) (memory : Memory) (ebp : Word) :
    Option (List (Word × Word)) :=
  loop (backtraceRound table memory) fuel (ebp, [])

/-- A call that has not returned: where its `ebp` points to, and where it returns to. -/
structure Frame where
  pointer : Address
  returnAddr : Word
deriving DecidableEq

structure CallStack where
  memory : Memory
  esp : Word
  ebp : Word
  /-- The calls that have not returned, the last of them first. -/
  frames : List Frame

/-- What a thread does to its stack. -/
inductive CallOp where
  /-- `call`, with the first two instructions of the function. -/
  | call (returnAddr : Word)
  /-- A byte is written, but none of those that `call` has put on the stack. -/
  | write (a : Address) (byte : BitVec 8)
  /-- Locals and arguments are made room for, or dropped. -/
  | move (esp : Word)
  /-- `leave; ret` -/
  | ret
deriving DecidableEq

/-- The end of the part of the stack that is in use by the calls. -/
def floor : List Frame → Nat
  | [] => 2 ^ 32
  | frame :: _ => frame.pointer.toNat

namespace CallStack

def step (stack : CallStack) : CallOp → Option CallStack
  | .call returnAddr =>
      -- there is room for two words, and the stack does not reach the address 0
      if 8 < stack.esp.toNat then
        some
          { memory :=
              (stack.memory.store (stack.esp - 4) returnAddr).store (stack.esp - 8) stack.ebp
            esp := stack.esp - 8
            ebp := stack.esp - 8
            frames := ⟨stack.esp - 8, returnAddr⟩ :: stack.frames }
      else none
  | .write a byte =>
      if ∀ frame ∈ stack.frames, 8 ≤ (a - frame.pointer).toNat then
        some { stack with memory := fun x => if x = a then byte else stack.memory x }
      else none
  | .move esp =>
      if esp.toNat ≤ floor stack.frames then some { stack with esp } else none
  | .ret =>
      match stack.frames with
      | [] => none
      | _ :: frames =>
          some
            { stack with
              esp := stack.ebp + 8
              ebp := stack.memory.load stack.ebp
              frames }

def machine : Machine CallStack CallOp where
  start stack := stack.ebp = 0 ∧ stack.frames = []
  step := step

end CallStack

/-- The return addresses of the calls in a run that have not returned, the last of them first. -/
def pendingStep (pending : List Word) : CallOp → List Word
  | .call returnAddr => returnAddr :: pending
  | .write _ _ => pending
  | .move _ => pending
  | .ret => pending.tail

def pendingCalls (run : List CallOp) : List Word := run.foldl pendingStep []

/-- From `ebp` on, every saved pointer leads to the next frame, and the last one is 0. -/
def Chained (memory : Memory) : Word → List Frame → Prop
  | ebp, [] => ebp = 0
  | ebp, frame :: frames =>
      ebp = frame.pointer ∧ frame.pointer ≠ 0 ∧
        memory.load (frame.pointer + 4) = frame.returnAddr ∧
        Chained memory (memory.load frame.pointer) frames

/-- The frames lie above each other. -/
def Stacked : List Frame → Prop
  | [] => True
  | frame :: frames => frame.pointer.toNat + 8 ≤ floor frames ∧ Stacked frames

variable {memory other : Memory} {ebp esp a : Word} {frame : Frame} {frames : List Frame}
  {table : SymbolTable} {lines : List (Word × Word)} {fuel : Nat}

theorem floor_le : floor frames ≤ 2 ^ 32 := by
  cases frames with
  | nil => exact Nat.le_refl _
  | cons frame frames => exact Nat.le_of_lt frame.pointer.isLt

theorem Stacked.floor_le (stacked : Stacked frames) (member : frame ∈ frames) :
    floor frames ≤ frame.pointer.toNat ∧ frame.pointer.toNat + 8 ≤ 2 ^ 32 := by
  induction frames with
  | nil => exact absurd member List.not_mem_nil
  | cons first frames ih =>
      obtain ⟨above, stacked⟩ := stacked
      cases List.mem_cons.mp member with
      | inl same =>
          subst same
          exact ⟨Nat.le_refl _, Nat.le_trans above Debug.floor_le⟩
      | inr later =>
          obtain ⟨below, inside⟩ := ih stacked later
          exact ⟨by simp only [floor]; omega, inside⟩

/-- A chain is only looked at in the two words of each frame. -/
theorem Chained.congr (chained : Chained memory ebp frames)
    (same : ∀ frame ∈ frames, ∀ x, (x - frame.pointer).toNat < 8 → other x = memory x) :
    Chained other ebp frames := by
  induction frames generalizing ebp with
  | nil => exact chained
  | cons frame frames ih =>
      obtain ⟨here, nonzero, returns, chained⟩ := chained
      have first := same frame List.mem_cons_self
      have saved : other.load frame.pointer = memory.load frame.pointer :=
        Memory.load_congr fun x inside => first x (by omega)
      have returned : other.load (frame.pointer + 4) = memory.load (frame.pointer + 4) :=
        Memory.load_congr fun x inside => first x (by bv_omega)
      refine ⟨here, nonzero, returned.trans returns, ?_⟩
      rw [saved]
      exact ih chained fun frame later => same frame (List.mem_cons_of_mem _ later)

/-- The lines for a list of return addresses. -/
def linesFor (table : SymbolTable) (addresses : List Word) : List (Word × Word) :=
  (addresses.filter (isPrinted table)).map fun addr => (addr, getFuncName table addr)

/-- The rounds of `print_backtrace`, by induction on the frames. -/
theorem backtraceRounds (chained : Chained memory ebp frames) (enough : frames.length < fuel) :
    loop (backtraceRound table memory) fuel (ebp, lines) =
      some (lines ++ linesFor table (frames.map Frame.returnAddr)) := by
  induction frames generalizing ebp lines fuel with
  | nil =>
      obtain ⟨fuel, rfl⟩ : ∃ less, fuel = less + 1 := ⟨fuel - 1, by omega⟩
      have stopped : ebp = 0 := chained
      rw [loop_exit (by rw [backtraceRound, if_neg (not_not_intro stopped)])]
      simp only [linesFor, List.map_nil, List.filter_nil, List.append_nil]
  | cons frame frames ih =>
      obtain ⟨rfl, nonzero, returns, chained⟩ := chained
      obtain ⟨fuel, rfl⟩ : ∃ less, fuel = less + 1 := ⟨fuel - 1, by omega⟩
      have less : frames.length < fuel := by
        rw [List.length_cons] at enough
        omega
      cases printed : isPrinted table frame.returnAddr with
      | true =>
          have round : backtraceRound table memory (frame.pointer, lines) =
              .inl (memory.load frame.pointer,
                lines ++ [(frame.returnAddr, getFuncName table frame.returnAddr)]) := by
            simp only [backtraceRound, if_pos nonzero, returns, printed, if_true]
          rw [loop_next round, ih chained less]
          simp only [linesFor, List.map_cons, List.filter_cons, printed, if_true, List.append_assoc,
            List.singleton_append]
      | false =>
          have round : backtraceRound table memory (frame.pointer, lines) =
              .inl (memory.load frame.pointer, lines) := by
            simp only [backtraceRound, if_pos nonzero, returns, printed, Bool.false_eq_true,
              if_false]
          rw [loop_next round, ih chained less]
          simp only [linesFor, List.map_cons, List.filter_cons, printed, Bool.false_eq_true,
            if_false]

namespace CallStack

/-- What every step keeps. -/
structure Sound (stack : CallStack) : Prop where
  chained : Chained stack.memory stack.ebp stack.frames
  stacked : Stacked stack.frames
  below : stack.esp.toNat ≤ floor stack.frames

variable {stack after : CallStack} {run : List CallOp} {op : CallOp} {returnAddr : Word}

/-- The two words of a call lie below all the frames, and the next link of the chain is in them. -/
theorem Sound.call (sound : stack.Sound) (room : 8 < stack.esp.toNat)
    (called : after =
      { memory := (stack.memory.store (stack.esp - 4) returnAddr).store (stack.esp - 8) stack.ebp
        esp := stack.esp - 8
        ebp := stack.esp - 8
        frames := ⟨stack.esp - 8, returnAddr⟩ :: stack.frames }) : after.Sound := by
  subst called
  have below := sound.below
  have saved : ((stack.memory.store (stack.esp - 4) returnAddr).store (stack.esp - 8)
      stack.ebp).load (stack.esp - 8) = stack.ebp := Memory.load_store_self
  have place : stack.esp - 8 + 4 = stack.esp - 4 := by bv_omega
  have apart : Apart (stack.esp - 4) 4 (stack.esp - 8) 4 := by
    constructor <;> bv_omega
  have returns : ((stack.memory.store (stack.esp - 4) returnAddr).store (stack.esp - 8)
      stack.ebp).load (stack.esp - 8 + 4) = returnAddr := by
    rw [place, Memory.load_store_of_apart apart, Memory.load_store_self]
  refine ⟨⟨rfl, ?_, returns, ?_⟩, ⟨?_, sound.stacked⟩, Nat.le_refl _⟩
  · show stack.esp - 8 ≠ 0
    bv_omega
  · show Chained _ (Memory.load _ (stack.esp - 8)) stack.frames
    rw [saved]
    refine sound.chained.congr fun frame member x inside => ?_
    obtain ⟨above, fits⟩ := sound.stacked.floor_le member
    have high : ¬ (x - (stack.esp - 4)).toNat < 4 := by bv_omega
    have low : ¬ (x - (stack.esp - 8)).toNat < 4 := by bv_omega
    exact (Memory.store_of_outside low).trans (Memory.store_of_outside high)
  · show (stack.esp - 8).toNat + 8 ≤ floor stack.frames
    bv_omega

theorem Sound.step (sound : stack.Sound) (moved : stack.step op = some after) : after.Sound := by
  cases op with
  | call returnAddr =>
      simp only [CallStack.step, Option.ite_none_right_eq_some] at moved
      obtain ⟨room, moved⟩ := moved
      exact sound.call room (Option.some.inj moved).symm
  | write a byte =>
      simp only [CallStack.step, Option.ite_none_right_eq_some] at moved
      obtain ⟨allowed, moved⟩ := moved
      obtain rfl := Option.some.inj moved
      refine ⟨sound.chained.congr fun frame member x inside => if_neg fun same => ?_,
        sound.stacked, sound.below⟩
      exact Nat.not_lt_of_le (allowed frame member) (same ▸ inside)
  | move esp =>
      simp only [CallStack.step, Option.ite_none_right_eq_some] at moved
      obtain ⟨allowed, moved⟩ := moved
      obtain rfl := Option.some.inj moved
      exact ⟨sound.chained, sound.stacked, allowed⟩
  | ret =>
      cases active : stack.frames with
      | nil =>
          simp only [CallStack.step, active] at moved
          cases moved
      | cons frame frames =>
          simp only [CallStack.step, active] at moved
          obtain rfl := Option.some.inj moved
          have chained := sound.chained
          have stacked := sound.stacked
          rw [active] at chained stacked
          obtain ⟨here, -, -, chained⟩ := chained
          obtain ⟨above, stacked⟩ := stacked
          refine ⟨?_, stacked, ?_⟩
          · show Chained stack.memory (stack.memory.load stack.ebp) frames
            rw [here]
            exact chained
          · show (stack.ebp + 8).toNat ≤ floor frames
            rw [here]
            bv_omega

theorem sound_of_reachable (reached : machine.Reachable stack) : stack.Sound := by
  refine reached.invariant (fun stack started => ?_) fun before op after sound moved =>
    sound.step moved
  obtain ⟨stopped, none⟩ := started
  refine ⟨?_, ?_, ?_⟩
  · rw [none]
    exact stopped
  · rw [none]
    trivial
  · rw [none]
    exact Nat.le_of_lt stack.esp.isLt

/-- The frames are those of the calls that have not returned. -/
theorem step_pending (moved : stack.step op = some after) :
    after.frames.map Frame.returnAddr = pendingStep (stack.frames.map Frame.returnAddr) op := by
  cases op with
  | call returnAddr =>
      simp only [CallStack.step, Option.ite_none_right_eq_some] at moved
      obtain ⟨-, moved⟩ := moved
      obtain rfl := Option.some.inj moved
      rfl
  | write a byte =>
      simp only [CallStack.step, Option.ite_none_right_eq_some] at moved
      obtain ⟨-, moved⟩ := moved
      obtain rfl := Option.some.inj moved
      rfl
  | move esp =>
      simp only [CallStack.step, Option.ite_none_right_eq_some] at moved
      obtain ⟨-, moved⟩ := moved
      obtain rfl := Option.some.inj moved
      rfl
  | ret =>
      cases active : stack.frames with
      | nil =>
          simp only [CallStack.step, active] at moved
          cases moved
      | cons frame frames =>
          simp only [CallStack.step, active] at moved
          obtain rfl := Option.some.inj moved
          rfl

theorem run_pending (ran : machine.run stack run = some after) :
    after.frames.map Frame.returnAddr =
      run.foldl pendingStep (stack.frames.map Frame.returnAddr) := by
  induction run generalizing stack with
  | nil =>
      obtain rfl := Option.some.inj ran
      rfl
  | cons op run ih =>
      rw [Machine.run_cons] at ran
      obtain ⟨next, moved, others⟩ := Option.bind_eq_some_iff.mp ran
      rw [List.foldl_cons, ← step_pending moved]
      exact ih others

end CallStack

open CallStack

theorem pendingCalls_length (run : List CallOp) : (pendingCalls run).length ≤ run.length := by
  have longer (pending : List Word) :
      (run.foldl pendingStep pending).length ≤ pending.length + run.length := by
    induction run generalizing pending with
    | nil => exact Nat.le_refl _
    | cons op run ih =>
        have one : (pendingStep pending op).length ≤ pending.length + 1 := by
          cases op with
          | call returnAddr => exact Nat.le_refl _
          | write a byte => exact Nat.le_succ _
          | move esp => exact Nat.le_succ _
          | ret =>
              rw [pendingStep, List.length_tail]
              omega
        have rest := ih (pendingStep pending op)
        rw [List.foldl_cons, List.length_cons]
        omega
  exact (longer []).trans (by rw [List.length_nil, Nat.zero_add])

/-- In every run of calls and returns, the backtrace shows the calls that have not returned and
whose return addresses belong to a function of the kernel, the last of them first. -/
theorem backtrace_shows_calls {stack after : CallStack} {run : List CallOp}
    (started : machine.start stack) (ran : machine.run stack run = some after)
    (enough : run.length < fuel) :
    printBacktrace fuel table after.memory after.ebp =
      some (linesFor table (pendingCalls run)) := by
  have sound := sound_of_reachable (Machine.Reachable.run (.start started) ran)
  have frames := run_pending ran
  rw [started.2] at frames
  have same : after.frames.map Frame.returnAddr = pendingCalls run := frames
  have few : after.frames.length < fuel := by
    have short := pendingCalls_length run
    rw [← same, List.length_map] at short
    omega
  have rounds := @backtraceRounds after.memory after.ebp after.frames table [] fuel
    sound.chained few
  rw [List.nil_append, same] at rounds
  exact rounds

/-- A table of two functions, and a thread in which a call has returned and one comes from below
the kernel. -/
def twoFunctions : SymbolTable where
  symbols := [⟨1, 0xC0100000, 0x40⟩, ⟨10, 0xC0100040, 0x80⟩]
  strtab := 0xC0200000

def newThread : CallStack where
  memory := fun _ => 0
  esp := 0xC0010000
  ebp := 0
  frames := []

def nestedCalls : List CallOp :=
  [.call 0xC0100010, .move 0xC000FFE0, .write 0xC000FFE4 7, .call 0xC0100050, .ret,
    .move 0xC000FFE0, .call 0xC0100060, .call 0x7C45]

theorem backtrace_shows_calls_nested : ∃ after,
    machine.run newThread nestedCalls = some after ∧
      printBacktrace 9 twoFunctions after.memory after.ebp =
        some [(0xC0100060, 0xC020000A), (0xC0100010, 0xC0200001)] := by
  have runs : (machine.run newThread nestedCalls).isSome = true := by decide
  obtain ⟨after, ran⟩ := Option.isSome_iff_exists.mp runs
  have shown := @backtrace_shows_calls twoFunctions 9 newThread after nestedCalls
    ⟨rfl, rfl⟩ ran (by decide)
  exact ⟨after, ran, shown.trans (by decide)⟩

end WindOs.Debug
