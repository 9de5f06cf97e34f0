import WindOs.Proc.SwitchTo
import Mathlib.Logic.Relation

namespace WindOs.Proc

open X86

/-! # Processes that take turns on one processor

A process is known by the address of its `struct pcb_t`.  Between two calls of `run_thread` the
running process does what it likes, also creating and reaping others, as long as it leaves the
stacks of the others and what `run_thread` needs of their control blocks alone.
-/

/-- `sizeof(struct pcb_t)` -/
def sizeofPcb : Nat := 92

namespace PcbAt

def startStack (memory : Memory) (pcb : Address) : Word := memory.load (pcb + 8)

def backupPde (memory : Memory) (pcb : Address) : Word := memory.load (pcb + 20)

/-- `&pcb->context` -/
def context (pcb : Address) : Address := pcb + 24

/-- `pcb->context` -/
def contextAt (memory : Memory) (pcb : Address) : Context :=
  let word (offset : Word) : Word := memory.load (context pcb + offset)
  { eip := word 0, ebx := word 4, ecx := word 8, edx := word 12, esi := word 16, edi := word 20,
    ebp := word 24, esp := word 28 }

def region (pcb : Address) : Region := ⟨pcb, sizeofPcb⟩

/-- The members that are used when the process runs again. -/
def Member (pcb x : Address) : Prop := (x - (pcb + 8)).toNat < 4 ∨ (x - (pcb + 20)).toNat < 36

variable {memory other : Memory} {pcb x : Address}

theorem contextAt_holds : memory.Holds (context pcb) (contextAt memory pcb).words := by
  simp only [contextAt, Context.words, Memory.Holds, BitVec.ofNat_eq_ofNat, BitVec.add_zero,
    BitVec.add_assoc, BitVec.reduceAdd, and_self]

theorem contextAt_eq {saved : Context} (holds : memory.Holds (context pcb) saved.words) :
    contextAt memory pcb = saved := by
  simp only [Context.words, Memory.Holds, BitVec.ofNat_eq_ofNat, BitVec.add_assoc,
    BitVec.reduceAdd] at holds
  obtain ⟨eip, ebx, ecx, edx, esi, edi, ebp, esp, -⟩ := holds
  simp only [contextAt, BitVec.ofNat_eq_ofNat, BitVec.add_zero, eip, ebx, ecx, edx, esi, edi, ebp,
    esp]

theorem Member.region (member : Member pcb x) : (region pcb).Contains x := by
  simp only [Member, PcbAt.region, Region.Contains, sizeofPcb] at *
  bv_omega

theorem member_startStack (inside : (x - (pcb + 8)).toNat < 4) : Member pcb x := .inl inside

theorem member_backupPde (inside : (x - (pcb + 20)).toNat < 4) : Member pcb x := .inr (by omega)

theorem member_context (inside : (x - context pcb).toNat < 32) : Member pcb x := by
  simp only [Member, context] at *
  bv_omega

theorem startStack_congr (same : ∀ x, Member pcb x → other x = memory x) :
    startStack other pcb = startStack memory pcb :=
  Memory.load_congr fun x inside => same x (member_startStack inside)

theorem backupPde_congr (same : ∀ x, Member pcb x → other x = memory x) :
    backupPde other pcb = backupPde memory pcb :=
  Memory.load_congr fun x inside => same x (member_backupPde inside)

theorem contextAt_congr (same : ∀ x, Member pcb x → other x = memory x) :
    contextAt other pcb = contextAt memory pcb :=
  contextAt_eq (contextAt_holds.congr (fun x inside => same x (member_context inside)) (by
    rw [Context.length_words]
    decide))

end PcbAt

/-- The stack of each process and which processes there are. -/
structure Processes where
  state : State
  current : Address
  alive : Address → Prop
  stack : Address → Region

namespace Processes

/-- The bytes that a process finds as it left them. -/
def Own (s : Processes) (pcb x : Address) : Prop := PcbAt.Member pcb x ∨ (s.stack pcb).Contains x

/-- The word below the stack pointer that a process has saved is on its stack. -/
def Resting (s : Processes) (pcb : Address) : Prop :=
  ∀ x, (x - ((PcbAt.contextAt s.state.memory pcb).esp - 4)).toNat < 4 → (s.stack pcb).Contains x

/-- There is room for a call with two arguments on the stack of the running process. -/
def Room (s : Processes) : Prop :=
  ∀ x, (x - (s.state.registers.esp - 12)).toNat < 12 → (s.stack s.current).Contains x

structure Layout (s : Processes) : Prop where
  current : s.alive s.current
  pcbApart : ∀ p q, s.alive p → s.alive q → p ≠ q → (PcbAt.region p).Disjoint (PcbAt.region q)
  stackApart : ∀ p q, s.alive p → s.alive q → p ≠ q → (s.stack p).Disjoint (s.stack q)
  stackPcb : ∀ p q, s.alive p → s.alive q → (s.stack p).Disjoint (PcbAt.region q)
  resting : ∀ p, s.alive p → p ≠ s.current → s.Resting p

/-- What the running process does between two calls of `run_thread`. -/
structure Works (s after : Processes) : Prop where
  current : after.current = s.current
  layout : after.Layout
  stack : ∀ p, s.alive p → after.alive p → after.stack p = s.stack p
  keeps : ∀ p, s.alive p → after.alive p → p ≠ s.current → ∀ x, s.Own p x →
    after.state.memory x = s.state.memory x

/-- `run_thread` up to the first instruction of `switch_to`, whose call leaves `ret`. -/
def callSwitchTo (entry : Address) (s : Processes) (pcb ret : Address) : State :=
  let t := { s.state with
    esp0 := PcbAt.startStack s.state.memory pcb
    cr3 := PcbAt.backupPde s.state.memory pcb }
  { ((t.push (PcbAt.context pcb)).push (PcbAt.context s.current)).push ret with eip := entry }

/-- `run_thread` up to the return of `switch_to`, on whatever stack that is. -/
def runThread (cpu : Cpu) (entry : Address) (s : Processes) (pcb ret : Address) : Option Processes :=
  if s.current = pcb then some s
  else (cpu.run switchTo.length (s.callSwitchTo entry pcb ret)).map fun state =>
    { s with state, current := pcb }

/-- The state after `run_thread`, when it has switched. -/
def switchedTo (entry : Address) (s : Processes) (pcb ret : Address) : Processes :=
  { s with
    state := switched (s.callSwitchTo entry pcb ret) (PcbAt.context s.current) (PcbAt.context pcb)
      (PcbAt.contextAt s.state.memory pcb)
    current := pcb }

inductive Step (cpu : Cpu) (entry : Address) : Processes → Processes → Prop where
  | works {s after : Processes} (done : s.Works after) : Step cpu entry s after
  | switches {s after : Processes} {pcb ret : Address} (alive : s.alive pcb) (room : s.Room)
      (done : s.runThread cpu entry pcb ret = some after) : Step cpu entry s after

section Switch

variable {cpu : Cpu} {entry last pcb ret p x : Address} {s after : Processes}

theorem callSwitchTo_stack :
    (s.callSwitchTo entry pcb ret).Stack [ret, PcbAt.context s.current, PcbAt.context pcb] := by
  let first : State := { s.state with
    esp0 := PcbAt.startStack s.state.memory pcb
    cr3 := PcbAt.backupPde s.state.memory pcb }
  let second : State := first.push (PcbAt.context pcb)
  let third : State := second.push (PcbAt.context s.current)
  have empty : first.Stack [] := trivial
  have one : second.Stack [PcbAt.context pcb] := empty.push (by decide)
  have two : third.Stack [PcbAt.context s.current, PcbAt.context pcb] := one.push (by simp)
  exact two.push (by simp)

theorem callSwitchTo_esp :
    (s.callSwitchTo entry pcb ret).registers.esp = s.state.registers.esp - 12 := by
  simp only [callSwitchTo, State.push]
  bv_omega

theorem callSwitchTo_outside (outside : ¬ (x - (s.state.registers.esp - 12)).toNat < 12) :
    (s.callSwitchTo entry pcb ret).memory x = s.state.memory x := by
  simp only [callSwitchTo, State.push]
  rw [Memory.store_of_outside, Memory.store_of_outside, Memory.store_of_outside] <;> bv_omega

theorem callSwitchTo_kept (room : s.Room) (outside : ¬ (s.stack s.current).Contains x) :
    (s.callSwitchTo entry pcb ret).memory x = s.state.memory x :=
  callSwitchTo_outside fun inside => outside (room x inside)

/-- `switch_to` is called with the context that the process has when it is called. -/
theorem callSwitchTo_member (layout : s.Layout) (room : s.Room) (alive : s.alive pcb)
    (member : PcbAt.Member pcb x) : (s.callSwitchTo entry p ret).memory x = s.state.memory x :=
  callSwitchTo_kept room fun inside =>
    layout.stackPcb s.current pcb layout.current alive x inside member.region

/-- `run_thread` always gets to the other process. -/
theorem runThread_done (code : cpu.CodeAt entry switchTo last) (layout : s.Layout)
    (alive : s.alive pcb) (room : s.Room) (different : s.current ≠ pcb) :
    s.runThread cpu entry pcb ret = some (s.switchedTo entry pcb ret) := by
  have same : PcbAt.contextAt (s.callSwitchTo entry pcb ret).memory pcb =
      PcbAt.contextAt s.state.memory pcb :=
    PcbAt.contextAt_congr fun x member => callSwitchTo_member layout room alive member
  have apart : Apart (PcbAt.context pcb) sizeofContext (PcbAt.context s.current) sizeofContext :=
    (layout.pcbApart pcb s.current alive layout.current (Ne.symm different)).apart
      (fun x inside => (PcbAt.member_context inside).region)
      (fun x inside => (PcbAt.member_context inside).region) (by decide) (by decide)
  have outside : Apart (s.callSwitchTo entry pcb ret).registers.esp 12 (PcbAt.context s.current)
      sizeofContext :=
    (layout.stackPcb s.current s.current layout.current layout.current).apart
      (fun x inside => room x (by rwa [callSwitchTo_esp] at inside))
      (fun x inside => (PcbAt.member_context inside).region) (by decide) (by decide)
  rw [runThread, if_neg different, switchTo_run (s := s.callSwitchTo entry pcb ret) code
    callSwitchTo_stack (same ▸ PcbAt.contextAt_holds) apart outside, Option.map_some, switchedTo]

/-- `switch_to` writes the context of the old process and a word on the stack of the new one. -/
theorem switchedTo_memory (context : ¬ (x - PcbAt.context s.current).toNat < 32)
    (slot : ¬ (x - ((PcbAt.contextAt s.state.memory pcb).esp - 4)).toNat < 4) :
    (s.switchedTo entry pcb ret).state.memory x = (s.callSwitchTo entry pcb ret).memory x := by
  refine (Memory.store_of_outside slot).trans (Memory.storeAll_of_outside ?_ ?_)
  · rwa [Context.length_words]
  · rw [Context.length_words]
    decide

/-- A process is left where its call of `switch_to` returns. -/
theorem switchedTo_context (layout : s.Layout) (alive : s.alive pcb)
    (different : pcb ≠ s.current) :
    PcbAt.contextAt (s.switchedTo entry pcb ret).state.memory s.current =
      Context.ofCaller (s.callSwitchTo entry pcb ret) := by
  refine PcbAt.contextAt_eq ?_
  refine Memory.Holds.store_of_apart (Memory.storeAll_holds ?_) ?_
  · rw [Context.length_words]
    decide
  · rw [Context.length_words]
    exact (layout.stackPcb pcb s.current alive layout.current).symm.apart
      (fun x inside => (PcbAt.member_context inside).region)
      (fun x inside => layout.resting pcb alive different x inside) (by decide) (by decide)

/-- The running process keeps its stack as it is when it calls `switch_to`. -/
theorem switchedTo_old_stack (layout : s.Layout) (alive : s.alive pcb)
    (different : pcb ≠ s.current) (inside : (s.stack s.current).Contains x) :
    (s.switchedTo entry pcb ret).state.memory x = (s.callSwitchTo entry pcb ret).memory x := by
  refine switchedTo_memory (fun context => ?_) (fun slot => ?_)
  · exact layout.stackPcb s.current s.current layout.current layout.current x inside
      (PcbAt.member_context context).region
  · exact layout.stackApart pcb s.current alive layout.current different x
      (layout.resting pcb alive different x slot) inside

/-- Of its control block only the context is written. -/
theorem switchedTo_old_pcb (layout : s.Layout) (room : s.Room) (alive : s.alive pcb)
    (different : pcb ≠ s.current) (inside : (PcbAt.region s.current).Contains x)
    (context : ¬ (x - PcbAt.context s.current).toNat < 32) :
    (s.switchedTo entry pcb ret).state.memory x = s.state.memory x := by
  rw [switchedTo_memory context (fun slot => ?_), callSwitchTo_kept room (fun stack => ?_)]
  · exact layout.stackPcb s.current s.current layout.current layout.current x stack inside
  · exact layout.stackPcb pcb s.current alive layout.current x
      (layout.resting pcb alive different x slot) inside

/-- What belongs to a process is kept when others switch. -/
theorem switchedTo_own (layout : s.Layout) (room : s.Room) (living : s.alive p)
    (old : p ≠ s.current) (own : s.Own p x)
    (slot : ¬ (x - ((PcbAt.contextAt s.state.memory pcb).esp - 4)).toNat < 4) :
    (s.switchedTo entry pcb ret).state.memory x = s.state.memory x := by
  rcases own with member | inside
  · rw [switchedTo_memory (fun context => ?_) slot,
      callSwitchTo_member layout room living member]
    exact layout.pcbApart p s.current living layout.current old x member.region
      (PcbAt.member_context context).region
  · rw [switchedTo_memory (fun context => ?_) slot, callSwitchTo_kept room]
    · exact layout.stackApart p s.current living layout.current old x inside
    · exact layout.stackPcb p s.current living layout.current x inside
        (PcbAt.member_context context).region

/-- The members of a process that waits are not in the slot that `switch_to` writes. -/
theorem slot_outside (layout : s.Layout) (alive : s.alive pcb) (different : pcb ≠ s.current)
    (living : s.alive p) (other : p ≠ pcb) (own : s.Own p x) :
    ¬ (x - ((PcbAt.contextAt s.state.memory pcb).esp - 4)).toNat < 4 := by
  intro slot
  have inside := layout.resting pcb alive different x slot
  rcases own with member | elsewhere
  · exact layout.stackPcb pcb p alive living x inside member.region
  · exact layout.stackApart pcb p alive living (Ne.symm other) x inside elsewhere

theorem switchedTo_layout (layout : s.Layout) (room : s.Room) (alive : s.alive pcb)
    (different : pcb ≠ s.current) : (s.switchedTo entry pcb ret).Layout := by
  refine { current := alive, pcbApart := layout.pcbApart, stackApart := layout.stackApart,
           stackPcb := layout.stackPcb, resting := ?_ }
  intro p living other x inside
  by_cases old : p = s.current
  · subst old
    rw [switchedTo_context layout alive different] at inside
    refine room x ?_
    simp only [Context.ofCaller, callSwitchTo_esp] at inside
    bv_omega
  · have same : PcbAt.contextAt (s.switchedTo entry pcb ret).state.memory p =
        PcbAt.contextAt s.state.memory p :=
      PcbAt.contextAt_congr fun x member => switchedTo_own layout room living old
        (.inl member) (slot_outside layout alive different living other (.inl member))
    rw [same] at inside
    exact layout.resting p living old x inside

end Switch

section Away

variable {cpu : Cpu} {entry last pcb ret p x : Address} {s t after : Processes}

/-- A step while the process `p` does not run. -/
def AwayStep (cpu : Cpu) (entry p : Address) (s after : Processes) : Prop :=
  Step cpu entry s after ∧ after.current ≠ p ∧ after.alive p

/-- The process `p` waits with what it had in `s`. -/
structure Parked (s t : Processes) (p : Address) : Prop where
  layout : t.Layout
  alive : t.alive p
  waiting : t.current ≠ p
  stack : t.stack p = s.stack p
  own : ∀ x, s.Own p x → t.state.memory x = s.state.memory x

theorem Parked.own_iff (parked : Parked s t p) : t.Own p x ↔ s.Own p x := by
  rw [Own, Own, parked.stack]

theorem Parked.context (parked : Parked s t p) :
    PcbAt.contextAt t.state.memory p = PcbAt.contextAt s.state.memory p :=
  PcbAt.contextAt_congr fun x member => parked.own x (.inl member)

theorem Parked.step (code : cpu.CodeAt entry switchTo last) (parked : Parked s t p)
    (step : AwayStep cpu entry p t after) : Parked s after p := by
  obtain ⟨step, waiting, alive⟩ := step
  cases step with
  | works done =>
      refine ⟨done.layout, alive, waiting, ?_, fun x own => ?_⟩
      · rw [done.stack p parked.alive alive, parked.stack]
      · rw [done.keeps p parked.alive alive (Ne.symm parked.waiting) x (parked.own_iff.mpr own),
          parked.own x own]
  | switches living room done =>
      rename_i pcb ret
      by_cases same : t.current = pcb
      · rw [runThread, if_pos same] at done
        cases done
        exact parked
      · rw [runThread_done code parked.layout living room same] at done
        cases done
        have different : pcb ≠ t.current := Ne.symm same
        refine ⟨switchedTo_layout parked.layout room living different, alive, waiting,
          parked.stack, fun x own => ?_⟩
        have here := parked.own_iff.mpr own
        rw [← parked.own x own]
        exact switchedTo_own parked.layout room parked.alive (Ne.symm parked.waiting) here
          (slot_outside parked.layout living different parked.alive (Ne.symm waiting) here)

/-- However many steps the others take. -/
theorem Parked.run (code : cpu.CodeAt entry switchTo last) (parked : Parked s t p)
    (away : Relation.ReflTransGen (AwayStep cpu entry p) t after) : Parked s after p := by
  induction away with
  | refl => exact parked
  | tail _ step ih => exact ih.step code step

/-- A process that is switched to goes on with its context, its stack and its address space. -/
theorem Parked.resumes (parked : Parked s t p) (room : t.Room) :
    let u := t.switchedTo entry p ret
    let into := PcbAt.contextAt s.state.memory p
    Context.ofState u.state = into ∧
      (∀ x, (s.stack p).Contains x →
        u.state.memory x = (s.state.memory.store (into.esp - 4) into.eip) x) ∧
      u.state.cr3 = PcbAt.backupPde s.state.memory p ∧
      u.state.esp0 = PcbAt.startStack s.state.memory p := by
  intro u into
  have context : PcbAt.contextAt t.state.memory p = into := parked.context
  have member : ∀ x, PcbAt.Member p x → t.state.memory x = s.state.memory x :=
    fun x member => parked.own x (.inl member)
  refine ⟨?_, fun x inside => ?_, PcbAt.backupPde_congr member, PcbAt.startStack_congr member⟩
  · simp only [u, Context.ofState, switchedTo, switched, context]
  · by_cases slot : (x - (into.esp - 4)).toNat < 4
    · simp only [u, switchedTo, switched, context]
      exact Memory.store_of_inside slot
    · have here : (t.stack p).Contains x := by rwa [parked.stack]
      rw [Memory.store_of_outside slot, ← parked.own x (.inr inside)]
      refine switchedTo_own parked.layout room parked.alive (Ne.symm parked.waiting) (.inr here) ?_
      rwa [context]

/-- When `switch_to` returns, the process has its registers and its stack as it left them, and the
processor has its page directory and the end of its stack. -/
theorem runThread_returns (code : cpu.CodeAt entry switchTo last) (layout : s.Layout)
    (room : s.Room) (alive : s.alive pcb) (different : s.current ≠ pcb) :
    ∃ left, s.runThread cpu entry pcb ret = some left ∧
      ∀ t, Relation.ReflTransGen (AwayStep cpu entry s.current) left t → t.Room →
        ∀ ret', ∃ back, t.runThread cpu entry s.current ret' = some back ∧
          back.current = s.current ∧
          Context.ofState back.state =
            { Context.ofState s.state with eip := ret, esp := s.state.registers.esp - 8 } ∧
          (∀ x, (s.stack s.current).Contains x →
            back.state.memory x = (s.callSwitchTo entry pcb ret).memory x) ∧
          back.state.cr3 = PcbAt.backupPde s.state.memory s.current ∧
          back.state.esp0 = PcbAt.startStack s.state.memory s.current := by
  refine ⟨s.switchedTo entry pcb ret, runThread_done code layout alive room different, ?_⟩
  intro t away roomThere ret'
  have start : Parked (s.switchedTo entry pcb ret) (s.switchedTo entry pcb ret) s.current :=
    ⟨switchedTo_layout layout room alive (Ne.symm different), layout.current, Ne.symm different, rfl,
      fun _ _ => rfl⟩
  have parked := start.run code away
  have back : t.runThread cpu entry s.current ret' = some (t.switchedTo entry s.current ret') :=
    runThread_done code parked.layout parked.alive roomThere parked.waiting
  obtain ⟨context, stack, pde, top⟩ := @parked.resumes entry ret' _ _ _ roomThere
  have called : (s.callSwitchTo entry pcb ret).top = ret := callSwitchTo_stack.top
  have caller : PcbAt.contextAt (s.switchedTo entry pcb ret).state.memory s.current =
      Context.ofCaller (s.callSwitchTo entry pcb ret) :=
    switchedTo_context layout alive (Ne.symm different)
  have members : ∀ offset : Word, offset = 8 ∨ offset = 20 →
      (s.switchedTo entry pcb ret).state.memory.load (s.current + offset) =
        s.state.memory.load (s.current + offset) := by
    intro offset which
    refine Memory.load_congr fun x inside => ?_
    refine switchedTo_old_pcb layout room alive (Ne.symm different) ?_ ?_
    · simp only [PcbAt.region, Region.Contains, sizeofPcb]
      rcases which with rfl | rfl <;> bv_omega
    · simp only [PcbAt.context]
      rcases which with rfl | rfl <;> bv_omega
  refine ⟨_, back, rfl, ?_, fun x inside => ?_, ?_, ?_⟩
  · refine context.trans (caller.trans ?_)
    have esp : s.state.registers.esp - 12 + 4 = s.state.registers.esp - 8 := by bv_omega
    simp only [Context.ofCaller, called, callSwitchTo_esp, esp]
    rfl
  · rw [stack x inside, caller]
    simp only [Context.ofCaller, BitVec.add_sub_cancel, called]
    by_cases slot : (x - (s.callSwitchTo entry pcb ret).registers.esp).toNat < 4
    · have whole := Memory.store_of_load called
      exact (Memory.store_of_inside slot).trans (congrFun whole x)
    · rw [Memory.store_of_outside slot]
      exact switchedTo_old_stack layout alive (Ne.symm different) inside
  · exact pde.trans (members 20 (.inr rfl))
  · exact top.trans (members 8 (.inl rfl))

/-- Two processes, of which one waits. -/
def twoProcesses (memory : Memory) : Processes :=
  { state :=
      { registers :=
          { eax := 0, ecx := 0, edx := 0, ebx := 0, esp := 0x3000, ebp := 0, esi := 0, edi := 0 }
        segments := { cs := 8, ss := 16, ds := 16, es := 16, fs := 16, gs := 16 }
        eip := 0
        eflags := 2
        cr3 := 0
        ss0 := 16
        esp0 := 0
        memory }
    current := 0x1000
    alive := fun p => p = 0x1000 ∨ p = 0x1100
    stack := fun p => if p = 0x1000 then ⟨0x2000, 0x1000⟩ else ⟨0x4000, 0x1000⟩ }

theorem twoProcesses_layout {memory : Memory}
    (low : 0x4004 ≤ (PcbAt.contextAt memory 0x1100).esp.toNat)
    (high : (PcbAt.contextAt memory 0x1100).esp.toNat ≤ 0x5000) : (twoProcesses memory).Layout := by
  refine { current := .inl rfl, pcbApart := ?_, stackApart := ?_, stackPcb := ?_, resting := ?_ }
  · intro p q first second different x inside elsewhere
    simp only [PcbAt.region, Region.Contains, sizeofPcb] at inside elsewhere
    rcases first with rfl | rfl <;> rcases second with rfl | rfl <;>
      first | exact different rfl | bv_omega
  · intro p q first second different x inside elsewhere
    rcases first with rfl | rfl <;> rcases second with rfl | rfl <;>
      first
        | exact different rfl
        | simp [twoProcesses, Region.Contains] at inside elsewhere
          bv_omega
  · intro p q first second x inside elsewhere
    simp only [PcbAt.region, Region.Contains, sizeofPcb] at inside elsewhere
    rcases first with rfl | rfl <;> rcases second with rfl | rfl <;>
      simp [twoProcesses] at inside <;> bv_omega
  · intro p living waits x inside
    rcases living with rfl | rfl
    · exact absurd rfl waits
    · simp only [twoProcesses] at inside
      simp [twoProcesses, Region.Contains]
      bv_omega

theorem twoProcesses_room {memory : Memory} : (twoProcesses memory).Room := by
  intro x inside
  simp [twoProcesses, Region.Contains] at inside ⊢
  bv_omega

/-- The memory when the second process waits with an empty stack. -/
def emptyStack : Memory := Memory.store (fun _ => 0) 0x1134 0x5000

theorem emptyStack_layout : (twoProcesses emptyStack).Layout := by
  have saved : (PcbAt.contextAt emptyStack 0x1100).esp = 0x5000 := Memory.load_store_self
  exact twoProcesses_layout (by rw [saved]; decide) (by rw [saved]; decide)

/-- Only the code of `switch_to`. -/
def switchToCpu : Cpu :=
  { descriptors := ⟨fun _ => none, fun _ => none, fun _ => none⟩
    gate := fun _ => none
    instr := Cpu.listing 0x100 switchTo }

theorem runThread_returns_twoProcesses :
    ∃ left, (twoProcesses emptyStack).runThread switchToCpu 0x100 0x1100 0x200 = some left ∧
      ∀ t, Relation.ReflTransGen (AwayStep switchToCpu 0x100 0x1000) left t → t.Room →
        ∀ ret', ∃ back, t.runThread switchToCpu 0x100 0x1000 ret' = some back ∧
          back.current = 0x1000 ∧
          Context.ofState back.state =
            { Context.ofState (twoProcesses emptyStack).state with eip := 0x200, esp := 0x3000 - 8 } ∧
          (∀ x, Region.Contains ⟨0x2000, 0x1000⟩ x →
            back.state.memory x = ((twoProcesses emptyStack).callSwitchTo 0x100 0x1100 0x200).memory x) ∧
          back.state.cr3 = PcbAt.backupPde (twoProcesses emptyStack).state.memory 0x1000 ∧
          back.state.esp0 = PcbAt.startStack (twoProcesses emptyStack).state.memory 0x1000 := by
  have code : switchToCpu.CodeAt 0x100 switchTo (0x100 + BitVec.ofNat 32 switchTo.length) := by
    have part := @Cpu.codeAt_listing switchToCpu 0x100 [] switchTo [] (fun _ _ => by
      rw [List.append_nil]
      rfl) (by decide)
    simpa using part
  exact runThread_returns code emptyStack_layout twoProcesses_room (.inr rfl) (by decide)

end Away

end Processes

end WindOs.Proc
