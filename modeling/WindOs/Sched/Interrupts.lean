import WindOs.Data.Machine
import Mathlib.Logic.Function.Basic

namespace WindOs.Sched

open Data

universe v

/-! # The interrupt flag

`IF` is one bit of the processor, and the flags that `atom_disable_intr` returns
are on the stacks of the processes.  A process is represented by what its kernel
stack holds: the critical sections it is in, and the interrupts it has not yet
returned from.
-/

/-- The functions that keep interrupts off while they run. -/
inductive Section where
  | P
  | V
  | schedule
  | doExit
  | timerHandler
deriving DecidableEq, Repr

/-- `flag` is the local variable of the section; `eflags` is the `IF` bit that the
processor pushed at an interrupt gate. -/
inductive Frame where
  | atomic (name : Section) (flag : Bool)
  | interrupt (eflags : Bool)
deriving DecidableEq, Repr

def Frame.isSection : Frame → Bool
  | .atomic _ _ => true
  | .interrupt _ => false

/-- A process that is not `started` has only the frame that `copy_thread` made for it. -/
structure Cpu (π : Type v) where
  interruptFlag : Bool
  current : π
  stack : π → List Frame
  started : π → Bool

namespace Cpu

variable {π : Type v} [DecidableEq π]

def sti (cpu : Cpu π) : Cpu π :=
  { cpu with interruptFlag := true }

def cli (cpu : Cpu π) : Cpu π :=
  { cpu with interruptFlag := false }

def atomDisableIntr (cpu : Cpu π) : Bool × Cpu π :=
  if cpu.interruptFlag then (true, cpu.cli) else (false, cpu)

def atomEnableIntr (flag : Bool) (cpu : Cpu π) : Cpu π :=
  if flag then cpu.sti else cpu

def setStack (cpu : Cpu π) (frames : List Frame) : Cpu π :=
  { cpu with stack := Function.update cpu.stack cpu.current frames }

def push (frame : Frame) (cpu : Cpu π) : Cpu π :=
  cpu.setStack (frame :: cpu.stack cpu.current)

/-- The process is in at least one critical section. -/
def inSection (cpu : Cpu π) (p : π) : Bool :=
  (cpu.stack p).any Frame.isSection

/-- Through an interrupt gate: the processor saves `eflags` and clears `IF`. -/
def gate (cpu : Cpu π) : Cpu π :=
  (cpu.push (.interrupt cpu.interruptFlag)).cli

/-- `switch_to`.  A process that was switched away from goes on where it was; a new one
leaves through the `iret` behind `context_to_intr`, with `IF` set by `copy_thread`. -/
def runThread (cpu : Cpu π) (pcb : π) : Cpu π :=
  if cpu.current = pcb then cpu
  else if cpu.started pcb then { cpu with current := pcb }
  else
    { cpu with
      interruptFlag := true
      current := pcb
      started := Function.update cpu.started pcb true }

/-- What the running process may do next. -/
inductive Op (π : Type v) where
  | enter (name : Section)
  | leave
  | runThread (pcb : π)
  | timer
  | int80
  | iret
  | sti
deriving DecidableEq

/-- `sys_exit` is the only caller of `sti` after `proc_init`; it and `int 0x80` are
outside all sections. -/
def step (cpu : Cpu π) : Op π → Option (Cpu π)
  | .enter name => some (cpu.atomDisableIntr.2.push (.atomic name cpu.atomDisableIntr.1))
  | .leave =>
      match cpu.stack cpu.current with
      | .atomic _ flag :: frames => some ((cpu.setStack frames).atomEnableIntr flag)
      | _ => none
  | .runThread pcb =>
      match cpu.stack cpu.current with
      | .atomic .schedule _ :: _ => some (cpu.runThread pcb)
      | _ => none
  | .timer => if cpu.interruptFlag then some cpu.gate else none
  | .int80 => if cpu.inSection cpu.current then none else some cpu.gate
  | .iret =>
      match cpu.stack cpu.current with
      | .interrupt eflags :: frames =>
          some { cpu.setStack frames with interruptFlag := eflags }
      | _ => none
  | .sti => if cpu.inSection cpu.current then none else some cpu.sti

/-- After `proc_init` only `idle` has run, and it is in no section. -/
structure Initial (cpu : Cpu π) : Prop where
  outside : ∀ p, cpu.stack p = []
  only : ∀ p, cpu.started p = true ↔ p = cpu.current

def machine (π : Type v) [DecidableEq π] : Machine (Cpu π) (Op π) where
  start := Initial
  step := step

/-- The frames are consistent with `IF` being `flag` while the top frame runs: a section
runs with `IF` clear and will put back what it found, and no interrupt has a
section under it. -/
def Balanced : List Frame → Bool → Prop
  | [], _ => True
  | .atomic _ saved :: frames, flag => flag = false ∧ Balanced frames saved
  | .interrupt saved :: frames, _ => frames.any Frame.isSection = false ∧ Balanced frames saved

/-- The running process is balanced with `IF`; every other one that has run is
suspended inside `schedule`. -/
structure Sound (cpu : Cpu π) : Prop where
  balanced : Balanced (cpu.stack cpu.current) cpu.interruptFlag
  running : cpu.started cpu.current = true
  fresh : ∀ p, cpu.started p = false → cpu.stack p = []
  suspended : ∀ p, cpu.started p = true → p ≠ cpu.current →
    ∃ flag frames, cpu.stack p = .atomic .schedule flag :: frames ∧ Balanced (cpu.stack p) false

variable {cpu after : Cpu π} {op : Op π} {frames : List Frame} {flag : Bool} {p q : π}

theorem Balanced.off (balanced : Balanced frames flag)
    (inside : frames.any Frame.isSection = true) : flag = false := by
  cases frames with
  | nil => simp at inside
  | cons frame frames =>
      cases frame with
      | atomic name saved => exact balanced.1
      | interrupt saved =>
          simp [Frame.isSection, balanced.1] at inside

theorem Balanced.outside {other : Bool} (balanced : Balanced frames flag)
    (outside : frames.any Frame.isSection = false) : Balanced frames other := by
  cases frames with
  | nil => trivial
  | cons frame frames =>
      cases frame with
      | atomic name saved => simp [Frame.isSection] at outside
      | interrupt saved => exact balanced

omit [DecidableEq π] in
theorem atomDisableIntr_eq : cpu.atomDisableIntr = (cpu.interruptFlag, cpu.cli) := by
  cases cpu with
  | mk interruptFlag current stack started => cases interruptFlag <;> rfl

omit [DecidableEq π] in
theorem atomEnableIntr_eq (off : cpu.interruptFlag = false) :
    cpu.atomEnableIntr flag = { cpu with interruptFlag := flag } := by
  cases cpu with
  | mk interruptFlag current stack started => cases off; cases flag <;> rfl

/-- Everything a step can do. -/
inductive Move (cpu : Cpu π) : Op π → Cpu π → Prop where
  | enter {name : Section} :
      Move cpu (.enter name) { cpu.setStack
        (.atomic name cpu.interruptFlag :: cpu.stack cpu.current) with interruptFlag := false }
  | leave {name : Section} {flag : Bool} {frames : List Frame}
      (top : cpu.stack cpu.current = .atomic name flag :: frames) :
      Move cpu .leave ((cpu.setStack frames).atomEnableIntr flag)
  | runThread {pcb : π} {flag : Bool} {frames : List Frame}
      (top : cpu.stack cpu.current = .atomic .schedule flag :: frames) :
      Move cpu (.runThread pcb) (cpu.runThread pcb)
  | timer (on : cpu.interruptFlag = true) : Move cpu .timer cpu.gate
  | int80 (outside : cpu.inSection cpu.current = false) : Move cpu .int80 cpu.gate
  | iret {eflags : Bool} {frames : List Frame}
      (top : cpu.stack cpu.current = .interrupt eflags :: frames) :
      Move cpu .iret { cpu.setStack frames with interruptFlag := eflags }
  | sti (outside : cpu.inSection cpu.current = false) : Move cpu .sti cpu.sti

theorem step_move (moved : cpu.step op = some after) : Move cpu op after := by
  cases op with
  | enter name =>
      simp only [step, atomDisableIntr_eq] at moved
      cases moved
      exact .enter
  | leave =>
      simp only [step] at moved
      split at moved
      · next top => cases moved; exact .leave top
      · contradiction
  | runThread pcb =>
      simp only [step] at moved
      split at moved
      · next top => cases moved; exact .runThread top
      · contradiction
  | timer =>
      simp only [step] at moved
      split at moved
      · next on => cases moved; exact .timer on
      · contradiction
  | int80 =>
      simp only [step] at moved
      split at moved
      · contradiction
      · next outside => cases moved; exact .int80 (by simpa using outside)
  | iret =>
      simp only [step] at moved
      split at moved
      · next top => cases moved; exact .iret top
      · contradiction
  | sti =>
      simp only [step] at moved
      split at moved
      · contradiction
      · next outside => cases moved; exact .sti (by simpa using outside)

/-- The running process goes on with another stack. -/
theorem Sound.setStack (sound : cpu.Sound) (balanced : Balanced frames flag) :
    ({ cpu.setStack frames with interruptFlag := flag } : Cpu π).Sound := by
  refine ⟨?_, sound.running, ?_, ?_⟩
  · simpa [Cpu.setStack] using balanced
  · intro p unstarted
    have unstarted : cpu.started p = false := unstarted
    have other : p ≠ cpu.current := by
      intro same
      have started := sound.running
      rw [← same, unstarted] at started
      contradiction
    simpa [Cpu.setStack, other] using sound.fresh p unstarted
  · intro p started other
    have other : p ≠ cpu.current := other
    simpa [Cpu.setStack, other] using sound.suspended p started other

theorem Sound.gate (sound : cpu.Sound) (outside : cpu.inSection cpu.current = false) :
    cpu.gate.Sound :=
  sound.setStack ⟨outside, sound.balanced⟩

theorem Sound.runThread {frames : List Frame} (sound : cpu.Sound)
    (inside : cpu.stack cpu.current = .atomic .schedule flag :: frames) :
    (cpu.runThread p).Sound := by
  have off : cpu.interruptFlag = false := by
    have balanced := sound.balanced
    rw [inside] at balanced
    exact balanced.1
  unfold Cpu.runThread
  split
  · exact sound
  · next other =>
      split
      · next started =>
          obtain ⟨_, _, _, balanced⟩ := sound.suspended p started (Ne.symm other)
          refine ⟨by simpa [off] using balanced, started, sound.fresh, ?_⟩
          intro q begun elsewhere
          by_cases left : q = cpu.current
          · subst left
            refine ⟨flag, frames, inside, ?_⟩
            rw [← off]
            exact sound.balanced
          · exact sound.suspended q begun left
      · next unstarted =>
          have empty := sound.fresh p (by simpa using unstarted)
          refine ⟨by simp [empty, Balanced], by simp, ?_, ?_⟩
          · intro q idle
            by_cases same : q = p
            · subst same
              simp at idle
            · exact sound.fresh q (by simpa [same] using idle)
          · intro q begun elsewhere
            have elsewhere : q ≠ p := elsewhere
            by_cases left : q = cpu.current
            · subst left
              refine ⟨flag, frames, inside, ?_⟩
              rw [← off]
              exact sound.balanced
            · exact sound.suspended q (by simpa [elsewhere] using begun) left

theorem Sound.step (sound : cpu.Sound) (moved : cpu.step op = some after) : after.Sound := by
  cases step_move moved with
  | enter => exact sound.setStack ⟨rfl, sound.balanced⟩
  | leave top =>
      have balanced := sound.balanced
      rw [top] at balanced
      rw [atomEnableIntr_eq (show (cpu.setStack _).interruptFlag = false from balanced.1)]
      exact sound.setStack balanced.2
  | runThread top => exact sound.runThread top
  | timer on =>
      apply sound.gate
      by_contra inside
      have off := sound.balanced.off (by simpa [inSection] using inside)
      rw [off] at on
      contradiction
  | int80 outside => exact sound.gate outside
  | iret top =>
      have balanced := sound.balanced
      rw [top] at balanced
      exact sound.setStack balanced.2
  | sti outside =>
      have same : cpu.setStack (cpu.stack cpu.current) = cpu := by simp [Cpu.setStack]
      have balanced : Balanced (cpu.stack cpu.current) true := sound.balanced.outside outside
      have set := sound.setStack balanced
      rw [same] at set
      exact set

omit [DecidableEq π] in
theorem Initial.sound (initial : cpu.Initial) : cpu.Sound := by
  refine ⟨?_, (initial.only _).mpr rfl, fun p _ => initial.outside p, ?_⟩
  · rw [initial.outside]
    trivial
  · intro p started other
    exact absurd ((initial.only p).mp started) other

theorem sound_of_reachable (reached : (machine π).Reachable cpu) : cpu.Sound :=
  reached.invariant (fun state (initial : state.Initial) => initial.sound)
    (fun _ _ _ sound moved => sound.step moved)

@[simp] theorem setStack_stack :
    (cpu.setStack frames).stack = Function.update cpu.stack cpu.current frames := rfl

omit [DecidableEq π] in
@[simp] theorem atomEnableIntr_stack : (cpu.atomEnableIntr flag).stack = cpu.stack := by
  cases flag <;> rfl

@[simp] theorem gate_stack : cpu.gate.stack = Function.update cpu.stack cpu.current
    (.interrupt cpu.interruptFlag :: cpu.stack cpu.current) := rfl

@[simp] theorem runThread_stack : (cpu.runThread p).stack = cpu.stack := by
  unfold Cpu.runThread
  split
  · rfl
  · split <;> rfl

theorem step_stack_other (moved : cpu.step op = some after) (other : p ≠ cpu.current) :
    after.stack p = cpu.stack p := by
  cases step_move moved with
  | runThread => rw [runThread_stack]
  | sti => rfl
  | _ => simp [other]

theorem step_stack_current (moved : cpu.step op = some after) :
    after.stack cpu.current = cpu.stack cpu.current ∨
      (∃ name, op = .enter name ∧
        after.stack cpu.current = .atomic name cpu.interruptFlag :: cpu.stack cpu.current) ∨
      (∃ eflags, after.stack cpu.current = .interrupt eflags :: cpu.stack cpu.current) ∨
      (∃ frame, cpu.stack cpu.current = frame :: after.stack cpu.current) := by
  cases step_move moved with
  | enter => exact .inr (.inl ⟨_, rfl, by simp⟩)
  | leave top => exact .inr (.inr (.inr ⟨_, by simpa using top⟩))
  | runThread => exact .inl (by rw [runThread_stack])
  | timer => exact .inr (.inr (.inl ⟨_, by simp; rfl⟩))
  | int80 => exact .inr (.inr (.inl ⟨_, by simp; rfl⟩))
  | iret top => exact .inr (.inr (.inr ⟨_, by simpa using top⟩))
  | sti => exact .inl rfl

theorem Sound.leave (sound : cpu.Sound) (moved : cpu.step .leave = some after) :
    ∃ name flag, cpu.stack cpu.current = .atomic name flag :: after.stack cpu.current ∧
      after.interruptFlag = flag := by
  cases step_move moved with
  | @leave name flag frames top =>
      have balanced := sound.balanced
      rw [top] at balanced
      rw [atomEnableIntr_eq (show (cpu.setStack _).interruptFlag = false from balanced.1)]
      exact ⟨name, flag, by simpa using top, rfl⟩

variable {trace : (machine π).Trace} {i j : Nat}

/-- `p` enters its outermost section at `i` and is in it up to `j`. -/
structure EnteredAt (trace : (machine π).Trace) (p : π) (i j : Nat) : Prop where
  before : i < j
  runs : (trace.state i).current = p
  outside : (trace.state i).inSection p = false
  enters : ∃ name, trace.label i = .enter name
  inside : ∀ k, i < k → k ≤ j → (trace.state k).inSection p = true

/-- The frame of that section is still there, with the `IF` of the moment of entry. -/
def OutermostFrame (frames : List Frame) (flag : Bool) : Prop :=
  ∃ upper name lower, frames = upper ++ .atomic name flag :: lower ∧
    lower.any Frame.isSection = false

theorem EnteredAt.extend (entered : EnteredAt trace p i j)
    (still : (trace.state (j + 1)).inSection p = true) : EnteredAt trace p i (j + 1) := by
  refine ⟨by have := entered.before; omega, entered.runs, entered.outside, entered.enters, ?_⟩
  intro k after upto
  rcases Nat.lt_or_eq_of_le upto with earlier | rfl
  · exact entered.inside k after (by omega)
  · exact still

theorem OutermostFrame.pop {frame : Frame} (outermost : OutermostFrame (frame :: frames) flag) :
    OutermostFrame frames flag ∨
      ((∃ name, frame = .atomic name flag) ∧ frames.any Frame.isSection = false) := by
  obtain ⟨upper, name, lower, split, clear⟩ := outermost
  cases upper with
  | nil =>
      obtain ⟨rfl, rfl⟩ := List.cons.inj split
      exact .inr ⟨⟨name, rfl⟩, clear⟩
  | cons first upper =>
      obtain ⟨rfl, rfl⟩ := List.cons.inj split
      exact .inl ⟨upper, name, lower, rfl, clear⟩

theorem OutermostFrame.push {frame : Frame} (outermost : OutermostFrame frames flag) :
    OutermostFrame (frame :: frames) flag := by
  obtain ⟨upper, name, lower, rfl, clear⟩ := outermost
  exact ⟨frame :: upper, name, lower, rfl, clear⟩

theorem OutermostFrame.inside (outermost : OutermostFrame frames flag) :
    frames.any Frame.isSection = true := by
  obtain ⟨upper, name, lower, rfl, _⟩ := outermost
  simp [Frame.isSection]

/-- Whoever is in a section entered the outermost one at some step of the run. -/
def Recorded (trace : (machine π).Trace) (j : Nat) (cpu : Cpu π) : Prop :=
  ∀ p, cpu.inSection p = true → ∃ i, EnteredAt trace p i j ∧
    OutermostFrame (cpu.stack p) (trace.state i).interruptFlag

theorem recorded_step (within : j < trace.length) (recorded : Recorded trace j (trace.state j)) :
    Recorded trace (j + 1) (trace.state (j + 1)) := by
  have moved := trace.step j within
  intro p still
  by_cases other : p = (trace.state j).current
  · subst other
    obtain same | ⟨name, enters, pushed⟩ | ⟨eflags, pushed⟩ | ⟨frame, popped⟩ :=
      step_stack_current moved
    · obtain ⟨i, entered, outermost⟩ := recorded _ (by rw [inSection, ← same]; exact still)
      exact ⟨i, entered.extend still, by rw [same]; exact outermost⟩
    · cases was : (trace.state j).inSection (trace.state j).current with
      | true =>
          obtain ⟨i, entered, outermost⟩ := recorded _ was
          exact ⟨i, entered.extend still, by rw [pushed]; exact outermost.push⟩
      | false =>
          refine ⟨j, ⟨by omega, rfl, was, ⟨name, enters⟩, ?_⟩, [], name, _, pushed, was⟩
          intro k after upto
          rw [show k = j + 1 by omega]
          exact still
    · obtain ⟨i, entered, outermost⟩ := recorded _ (by
        simpa [inSection, pushed, Frame.isSection] using still)
      exact ⟨i, entered.extend still, by rw [pushed]; exact outermost.push⟩
    · obtain ⟨i, entered, outermost⟩ := recorded _ (by
        rw [inSection, popped, List.any_cons, show ((trace.state (j + 1)).stack _).any _ = true from still]
        simp)
      rw [popped] at outermost
      obtain kept | ⟨_, clear⟩ := outermost.pop
      · exact ⟨i, entered.extend still, kept⟩
      · rw [inSection, clear] at still
        contradiction
  · have same := step_stack_other moved other
    obtain ⟨i, entered, outermost⟩ := recorded p (by rw [inSection, ← same]; exact still)
    exact ⟨i, entered.extend still, by rw [same]; exact outermost⟩

theorem recorded_trace (within : j ≤ trace.length) : Recorded trace j (trace.state j) := by
  apply @Machine.Trace.invariant _ _ _ (Recorded trace) trace _
    (fun index inside => recorded_step inside) _ within
  intro p inside
  have initial : (trace.state 0).Initial := trace.start
  simp [inSection, initial.outside] at inside

/-- In every run: the running process is in a section only with `IF` clear, so no
timer interrupt comes there, and who leaves its outermost section leaves `IF` as
it was when it entered it. -/
theorem interrupt_discipline (trace : (machine π).Trace) {j : Nat} (within : j ≤ trace.length) :
    ((trace.state j).inSection (trace.state j).current = true →
      (trace.state j).interruptFlag = false ∧ (trace.state j).step .timer = none) ∧
    (∀ p, j < trace.length → (trace.state j).current = p → trace.label j = .leave →
      (trace.state (j + 1)).inSection p = false →
      ∃ i, EnteredAt trace p i j ∧
        (trace.state (j + 1)).interruptFlag = (trace.state i).interruptFlag) := by
  have sound := sound_of_reachable (trace.reachable within)
  constructor
  · intro inside
    have off := sound.balanced.off inside
    exact ⟨off, by simp [step, off]⟩
  · intro p more runs leaves left
    have moved := trace.step j more
    change (trace.state j).step (trace.label j) = _ at moved
    rw [leaves] at moved
    subst runs
    obtain ⟨name, flag, top, restored⟩ := sound.leave moved
    obtain ⟨i, entered, outermost⟩ := recorded_trace within (trace.state j).current
      (by simp [inSection, top, Frame.isSection])
    rw [top] at outermost
    obtain kept | ⟨⟨_, popped⟩, _⟩ := outermost.pop
    · rw [inSection, kept.inside] at left
      contradiction
    · cases popped
      exact ⟨i, entered, restored⟩

/-- `idle` and a process that has not run yet, with `IF` set. -/
def booted : Cpu (Fin 2) where
  interruptFlag := true
  current := 0
  stack := fun _ => []
  started := fun p => p = 0

theorem booted_initial : booted.Initial :=
  ⟨fun _ => rfl, by simp [booted]⟩

/-- `idle` calls `P`, which schedules the new process; the timer interrupts that one and
schedules `idle` again, which leaves `schedule` and then `P`. -/
def preempted : (machine (Fin 2)).Trace :=
  .ofLabels _ booted booted_initial .leave
    [.enter .P, .enter .schedule, .runThread 1, .timer, .enter .timerHandler, .enter .schedule,
      .runThread 0, .leave, .leave] rfl

theorem interrupt_discipline_preempted :
    (preempted.state 8).inSection (preempted.state 8).current = true ∧
      (preempted.state 8).interruptFlag = false ∧
      (∃ i, EnteredAt preempted 0 i 8 ∧
        (preempted.state 9).interruptFlag = (preempted.state i).interruptFlag) ∧
      (preempted.state 9).interruptFlag = true := by
  obtain ⟨inside, leaves⟩ := interrupt_discipline preempted (show 8 ≤ 9 by decide)
  exact ⟨by decide, (inside (by decide)).1,
    leaves 0 (by decide) (by decide) (by decide) (by decide), by decide⟩

end Cpu

end WindOs.Sched
