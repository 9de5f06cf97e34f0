import WindOs.Sync.MonitorInvariant

namespace WindOs.Sync

open Data

universe v

/-! # The monitor version of productor_consumer.c

Each thread runs its loop between the calls of the monitor.  The threads test the
buffer once, with `if`, so everything rests on what `buffer_m` is when the baton
reaches them.
-/

/-- The condition variables `PRODUCER` and `CONSUMER`, and with them the two kinds
of thread: each kind waits on the condition of its own name. -/
inductive Cv where
  | producer
  | consumer
deriving DecidableEq, Repr

namespace Cv

def other : Cv → Cv
  | .producer => .consumer
  | .consumer => .producer

/-- How full the buffer is for a producer, how empty for a consumer.  Read this
way the two kinds of thread do the same: they wait at level 5, raise the level
by one and signal at level 1. -/
def level : Cv → Int → Int
  | .producer, buffer => buffer
  | .consumer, buffer => 5 - buffer

@[simp] theorem other_other (side : Cv) : side.other.other = side := by
  cases side <;> rfl

@[simp] theorem other_ne (side : Cv) : side.other ≠ side := by
  cases side <;> decide

theorem eq_or_other (side cond : Cv) : cond = side ∨ cond = side.other := by
  cases side <;> cases cond <;> simp [other]

theorem level_other (side : Cv) (buffer : Int) : side.other.level buffer = 5 - side.level buffer := by
  cases side <;> simp only [other, level]; omega

end Cv

/-- The statement of the loop that a thread executes when no call of the monitor
is under way.  A thread that is inside `enter` goes on at `test`. -/
inductive Line where
  | test
  | add
  | print
  | check
  | leave
deriving DecidableEq, Repr

structure ProducerConsumer (π : Type v) where
  monitor : Monitor π Cv
  buffer : Int
  line : π → Line

namespace ProducerConsumer

variable {π : Type v} [DecidableEq π]

/-- `test_monitor`. -/
def testMonitor : ProducerConsumer π where
  monitor := monitorInit
  buffer := 0
  line := fun _ => .test

def goto (state : ProducerConsumer π) (p : π) (line : Line) : ProducerConsumer π :=
  { state with line := Function.update state.line p line }

/-- Call the monitor and go on at `line` when the call returns. -/
def call (state : ProducerConsumer π) (p : π) (target : Call Cv) (line : Line) :
    Option (ProducerConsumer π) :=
  (state.monitor.call p target).map fun monitor => { state.goto p line with monitor }

/-- One statement of the loop that both kinds of thread run. -/
def loopLine (waitsOn signals : Cv) (stuck change ready : Int) (state : ProducerConsumer π)
    (p : π) : Option (ProducerConsumer π) :=
  match state.line p with
  | .test => if state.buffer = stuck then state.call p (.wait waitsOn) .add else some (state.goto p .add)
  | .add => some { state.goto p .print with buffer := state.buffer + change }
  | .print => some (state.goto p .check)
  | .check =>
      if state.buffer = ready then state.call p (.signal signals) .leave
      else some (state.goto p .leave)
  | .leave => state.call p .leave .test

def producerMonitor : ProducerConsumer π → π → Option (ProducerConsumer π) :=
  loopLine .producer .consumer 5 1 1

def consumerMonitor : ProducerConsumer π → π → Option (ProducerConsumer π) :=
  loopLine .consumer .producer 0 (-1) 4

/-- The thread `p` takes a step: of the monitor function it is in, or of its own loop. -/
def step (role : π → Cv) (state : ProducerConsumer π) (p : π) : Option (ProducerConsumer π) :=
  if state.monitor.sems.state p = .taskSleeping then none
  else if state.monitor.pc p = .body then
    match role p with
    | .producer => state.producerMonitor p
    | .consumer => state.consumerMonitor p
  else (state.monitor.execute p).map fun monitor => { state with monitor }

def machine (role : π → Cv) : Machine (ProducerConsumer π) π where
  start state := state = testMonitor
  step := step role

/-- A statement of the loop of a thread whose role is `side`, with its effect read
as a level. -/
inductive Move (side : Cv) (state : ProducerConsumer π) (p : π) : ProducerConsumer π → Prop where
  | wait (line : state.line p = .test) (stuck : side.level state.buffer = 5) :
      Move side state p
        { state.goto p .add with monitor := state.monitor.goto p (.waitCount side) }
  | pass (line : state.line p = .test) (free : side.level state.buffer ≠ 5) :
      Move side state p (state.goto p .add)
  | add {buffer : Int} (line : state.line p = .add)
      (raised : side.level buffer = side.level state.buffer + 1) :
      Move side state p { state.goto p .print with buffer }
  | print (line : state.line p = .print) : Move side state p (state.goto p .check)
  | signal (line : state.line p = .check) (ready : side.level state.buffer = 1) :
      Move side state p
        { state.goto p .leave with monitor := state.monitor.goto p (.signalTest side.other) }
  | skip (line : state.line p = .check) (unready : side.level state.buffer ≠ 1) :
      Move side state p (state.goto p .leave)
  | leave (line : state.line p = .leave) :
      Move side state p { state.goto p .test with monitor := state.monitor.goto p .leaveTest }

variable {state after : ProducerConsumer π} {p : π} {role : π → Cv}

theorem loopLine_move {side : Cv} {stuck change ready : Int} (here : state.monitor.pc p = .body)
    (atStuck : ∀ buffer, buffer = stuck ↔ side.level buffer = 5)
    (raises : ∀ buffer, side.level (buffer + change) = side.level buffer + 1)
    (atReady : ∀ buffer, buffer = ready ↔ side.level buffer = 1)
    (moved : loopLine side side.other stuck change ready state p = some after) :
    Move side state p after := by
  cases line : state.line p with
  | test =>
      simp only [loopLine, line, call, Monitor.call, if_pos here, Option.map_some] at moved
      split at moved
      · next full => cases moved; exact .wait line ((atStuck _).mp full)
      · next free => cases moved; exact .pass line (fun full => free ((atStuck _).mpr full))
  | add =>
      simp only [loopLine, line] at moved
      cases moved
      exact .add line (raises _)
  | print =>
      simp only [loopLine, line] at moved
      cases moved
      exact .print line
  | check =>
      simp only [loopLine, line, call, Monitor.call, if_pos here, Option.map_some] at moved
      split at moved
      · next ready => cases moved; exact .signal line ((atReady _).mp ready)
      · next unready => cases moved; exact .skip line (fun ready => unready ((atReady _).mpr ready))
  | leave =>
      simp only [loopLine, line, call, Monitor.call, if_pos here, Option.map_some] at moved
      cases moved
      exact .leave line

theorem step_cases (moved : step role state p = some after) :
    state.monitor.sems.state p ≠ .taskSleeping ∧
      ((state.monitor.pc p = .body ∧ Move (role p) state p after) ∨
        ∃ monitor, state.monitor.execute p = some monitor ∧ after = { state with monitor }) := by
  by_cases asleep : state.monitor.sems.state p = .taskSleeping
  · simp [step, asleep] at moved
  simp only [step, if_neg asleep] at moved
  refine ⟨asleep, ?_⟩
  split at moved
  · next here =>
      refine .inl ⟨here, ?_⟩
      cases side : role p with
      | producer =>
          simp only [side] at moved
          exact loopLine_move here (fun _ => Iff.rfl) (fun _ => rfl) (fun _ => Iff.rfl) moved
      | consumer =>
          simp only [side] at moved
          exact loopLine_move here (by simp only [Cv.level]; omega) (by simp only [Cv.level]; omega)
            (by simp only [Cv.level]; omega) moved
  · next outside =>
      obtain ⟨monitor, executed, rfl⟩ := Option.map_eq_some_iff.mp moved
      exact .inr ⟨monitor, executed, rfl⟩

/-- The level of `side` lies between two bounds, and threads that wait on a
condition pin it to one of them. -/
structure Within (state : ProducerConsumer π) (side : Cv) (low high : Int) : Prop where
  lower : low ≤ side.level state.buffer
  upper : side.level state.buffer ≤ high
  own : 0 < state.monitor.xCount side → side.level state.buffer = high
  foreign : 0 < state.monitor.xCount side.other → side.level state.buffer = low

/-- No update of the buffer is under way. -/
def Free (state : ProducerConsumer π) : Prop :=
  ∀ side, state.Within side 0 5

/-- What a signaller passes on to a thread that waits on `cond`. -/
structure HandOver (state : ProducerConsumer π) (cond : Cv) : Prop where
  level : cond.level state.buffer = 4
  nobody : state.monitor.xCount cond.other ≤ 0

/-- What the holder of the baton can rely on at each statement. -/
def SafeAt (state : ProducerConsumer π) (side : Cv) (line : Line) : Pc Cv → Prop
  | .waiting cond | .waitUncount cond | .waitPrint cond => state.HandOver cond
  | .signalTest cond | .signalCount cond | .signalWake cond => state.HandOver cond
  | .waitCount cond => state.Free ∧ cond.level state.buffer = 5
  | .body =>
      match line with
      | .add => state.Within side 0 4
      | .print | .check => state.Within side 1 5
      | .test | .leave => state.Free
  | _ => state.Free

/-- What whoever fetches the baton from a semaphore can rely on. -/
def Given (state : ProducerConsumer π) : MonitorSem Cv → Prop
  | .xSem cond => state.HandOver cond
  | .mutex | .next => state.Free

def Safe (state : ProducerConsumer π) (role : π → Cv) : Holder π Cv → Prop
  | .process p => state.SafeAt (role p) (state.line p) (state.monitor.pc p)
  | .semaphore s => state.Given s

/-- Which calls a thread makes, and where it goes on after each. -/
def Follows (side : Cv) (line : Line) : Pc Cv → Prop
  | .enter | .entering | .leaveTest | .leaveNext | .leaveMutex => line = .test
  | .body => True
  | .waitCount cond | .waitTest cond | .waitNext cond | .waitMutex cond | .waitSleep cond
  | .waiting cond | .waitUncount cond | .waitPrint cond => cond = side ∧ line = .add
  | .signalTest cond | .signalCount cond | .signalWake cond | .signalSleep cond
  | .signaling cond | .signalUncount cond => cond = side.other ∧ line = .leave

structure Sound [Fintype π] (role : π → Cv) (state : ProducerConsumer π) (holder : Holder π Cv) :
    Prop where
  monitor : state.monitor.Sound holder
  safe : state.Safe role holder
  follows : ∀ p, Follows (role p) (state.line p) (state.monitor.pc p)

section Levels

variable {side cond : Cv}

omit [DecidableEq π] in
theorem Within.free (within : state.Within side 0 5) : state.Free := by
  intro cond
  obtain rfl | rfl := Cv.eq_or_other side cond
  · exact within
  · have mirror := Cv.level_other side state.buffer
    refine ⟨?_, ?_, ?_, ?_⟩
    · have upper := within.upper
      omega
    · have lower := within.lower
      omega
    · intro waiting
      have low := within.foreign waiting
      omega
    · intro waiting
      rw [Cv.other_other] at waiting
      have high := within.own waiting
      omega

omit [DecidableEq π] in
theorem Free.congr (free : state.Free) (buffer : after.buffer = state.buffer)
    (xCount : after.monitor.xCount = state.monitor.xCount) : after.Free := by
  intro side
  have within := free side
  exact ⟨buffer ▸ within.lower, buffer ▸ within.upper, buffer ▸ xCount ▸ within.own,
    buffer ▸ xCount ▸ within.foreign⟩

omit [DecidableEq π] in
theorem HandOver.congr (handOver : state.HandOver cond) (buffer : after.buffer = state.buffer)
    (xCount : after.monitor.xCount cond.other = state.monitor.xCount cond.other) :
    after.HandOver cond :=
  ⟨buffer ▸ handOver.level, xCount ▸ handOver.nobody⟩

omit [DecidableEq π] in
theorem SafeAt.congr {line : Line} {pc : Pc Cv} (safe : state.SafeAt side line pc)
    (buffer : after.buffer = state.buffer)
    (xCount : after.monitor.xCount = state.monitor.xCount) : after.SafeAt side line pc := by
  have within : ∀ low high, state.Within side low high → after.Within side low high := by
    intro low high within
    exact ⟨buffer ▸ within.lower, buffer ▸ within.upper, buffer ▸ xCount ▸ within.own,
      buffer ▸ xCount ▸ within.foreign⟩
  cases pc with
  | body =>
      cases line with
      | add => exact within _ _ safe
      | print => exact within _ _ safe
      | check => exact within _ _ safe
      | test => exact Free.congr safe buffer xCount
      | leave => exact Free.congr safe buffer xCount
  | waitCount cond => exact ⟨Free.congr safe.1 buffer xCount, buffer ▸ safe.2⟩
  | waiting cond => exact HandOver.congr safe buffer (by rw [xCount])
  | waitUncount cond => exact HandOver.congr safe buffer (by rw [xCount])
  | waitPrint cond => exact HandOver.congr safe buffer (by rw [xCount])
  | signalTest cond => exact HandOver.congr safe buffer (by rw [xCount])
  | signalCount cond => exact HandOver.congr safe buffer (by rw [xCount])
  | signalWake cond => exact HandOver.congr safe buffer (by rw [xCount])
  | _ => exact Free.congr safe buffer xCount

omit [DecidableEq π] in
theorem HandOver.within (handOver : state.HandOver cond) : state.Within cond 0 4 := by
  have level := handOver.level
  have nobody := handOver.nobody
  exact ⟨by omega, by omega, fun _ => level, fun waiting => by omega⟩

omit [DecidableEq π] in
/-- A signal that finds nobody waiting. -/
theorem HandOver.free (handOver : state.HandOver cond) (nobody : state.monitor.xCount cond ≤ 0) :
    state.Free := by
  have level := handOver.level
  have others := handOver.nobody
  refine @Within.free _ _ cond ⟨by omega, by omega, ?_, ?_⟩
  · intro waiting
    omega
  · intro waiting
    omega

omit [DecidableEq π] in
theorem Given.congr {s : MonitorSem Cv} (given : state.Given s) (buffer : after.buffer = state.buffer)
    (xCount : after.monitor.xCount = state.monitor.xCount) : after.Given s := by
  cases s with
  | mutex => exact Free.congr given buffer xCount
  | next => exact Free.congr given buffer xCount
  | xSem cond => exact HandOver.congr given buffer (by rw [xCount])

omit [DecidableEq π] in
theorem SafeAt.given {line : Line} {pc : Pc Cv} {s : MonitorSem Cv}
    (safe : state.SafeAt side line pc) (gives : pc.gives = some s) : state.Given s := by
  cases pc <;> cases gives <;> exact safe

omit [DecidableEq π] in
theorem Given.received {line : Line} {pc : Pc Cv} {s : MonitorSem Cv} (given : state.Given s)
    (pending : pc.pending = some s) : state.SafeAt side line pc := by
  cases pc <;> cases pending <;> exact given

omit [DecidableEq π] in
theorem Given.granted {line : Line} {pc : Pc Cv} {s : MonitorSem Cv} (given : state.Given s)
    (wants : pc.wants = some s) (follows : Follows side line pc) :
    state.SafeAt side line pc.granted := by
  cases pc with
  | enter => cases wants; cases follows; exact given
  | waitSleep cond => cases wants; exact given
  | signalSleep cond => cases wants; exact given
  | _ => contradiction

end Levels

section Execute

variable {side : Cv} {line : Line} {monitor : Monitor π Cv}

theorem Follows.execute (follows : Follows side line (state.monitor.pc p))
    (executed : state.monitor.execute p = some monitor) : Follows side line (monitor.pc p) := by
  simp only [Monitor.execute] at executed
  cases here : state.monitor.pc p <;> simp only [here] at executed follows
  case body => contradiction
  case waitTest | signalTest | leaveTest =>
      split at executed <;> cases executed <;> simp_all [Monitor.goto, Follows]
  case enter | waitSleep | signalSleep =>
      cases executed
      simp only [Monitor.doP, Monitor.goto, Function.update_self]
      split <;> simp_all [Follows]
  case entering | waitPrint | signalUncount =>
      cases executed
      simp [Monitor.goto, Follows]
  all_goals
      cases executed
      simpa [Monitor.goto, Monitor.addXCount, Monitor.addNextCount, Monitor.doV, Follows] using follows

theorem execute_gives {s : MonitorSem Cv} (gives : (state.monitor.pc p).gives = some s)
    (executed : state.monitor.execute p = some monitor) :
    monitor.xCount = state.monitor.xCount := by
  simp only [Monitor.execute] at executed
  cases here : state.monitor.pc p <;> rw [here] at gives <;> cases gives <;>
    simp only [here] at executed <;> cases executed <;> rfl

/-- A statement of a monitor function by the holder that leaves it the holder. -/
theorem SafeAt.execute (safe : state.SafeAt side line (state.monitor.pc p))
    (follows : Follows side line (state.monitor.pc p))
    (executed : state.monitor.execute p = some monitor)
    (before : state.monitor.Active p) (still : monitor.Active p) :
    ProducerConsumer.SafeAt { state with monitor } side line (monitor.pc p) := by
  simp only [Monitor.execute] at executed
  cases here : state.monitor.pc p <;> simp only [here] at executed follows safe
  case body => contradiction
  case enter | waitSleep | signalSleep => simp [Monitor.Active, here, Pc.inside, Pc.pending] at before
  case waitNext | waitMutex | signalWake | leaveNext | leaveMutex =>
      cases executed
      simp [Monitor.Active, Monitor.doV, Monitor.goto, Pc.inside, Pc.pending] at still
  case entering =>
      cases executed
      subst follows
      simp only [Monitor.goto, Function.update_self]
      exact Free.congr safe rfl rfl
  case waitCount cond =>
      cases executed
      simp only [Monitor.goto, Function.update_self]
      have level := safe.2
      have within := safe.1 cond
      refine @Within.free _ _ cond ⟨within.lower, within.upper, fun _ => level, ?_⟩
      intro waiting
      apply within.foreign
      simpa [Monitor.addXCount] using waiting
  case waitTest | leaveTest =>
      split at executed <;> cases executed <;>
        simp only [Monitor.goto, Function.update_self] <;> exact Free.congr safe rfl rfl
  case waiting cond =>
      cases executed
      simp only [Monitor.goto, Function.update_self]
      exact HandOver.congr safe rfl rfl
  case waitUncount cond =>
      cases executed
      simp only [Monitor.goto, Function.update_self]
      exact HandOver.congr safe rfl (by simp [Monitor.addXCount])
  case waitPrint cond =>
      cases executed
      obtain ⟨rfl, rfl⟩ := follows
      simp only [Monitor.goto, Function.update_self]
      apply HandOver.within
      exact HandOver.congr safe rfl rfl
  case signalTest cond =>
      obtain ⟨rfl, rfl⟩ := follows
      split at executed
      · cases executed
        simp only [Monitor.goto, Function.update_self]
        exact HandOver.congr safe rfl rfl
      · next missing =>
          cases executed
          simp only [Monitor.goto, Function.update_self]
          exact Free.congr (HandOver.free safe (Int.not_lt.mp missing)) rfl rfl
  case signalCount cond =>
      cases executed
      simp only [Monitor.goto, Function.update_self]
      exact HandOver.congr safe rfl rfl
  case signaling =>
      cases executed
      simp only [Monitor.goto, Function.update_self]
      exact Free.congr safe rfl rfl
  case signalUncount =>
      cases executed
      obtain ⟨rfl, rfl⟩ := follows
      simp only [Monitor.goto, Function.update_self]
      exact Free.congr safe rfl rfl

end Execute

section Preservation

variable [Fintype π] {holder : Holder π Cv}

theorem Sound.execute {monitor : Monitor π Cv} (sound : state.Sound role holder)
    (awake : state.monitor.sems.state p ≠ .taskSleeping)
    (executed : state.monitor.execute p = some monitor) :
    ∃ later, ProducerConsumer.Sound role { state with monitor } later := by
  have moved : state.monitor.step ⟨p, none⟩ = some monitor := by
    simp only [Monitor.step, if_neg awake]
    exact executed
  have follows : ∀ q, Follows (role q) (state.line q) (monitor.pc q) := by
    intro q
    by_cases same : q = p
    · subst same
      exact (sound.follows q).execute executed
    · rw [Monitor.step_pc_other moved same]
      exact sound.follows q
  obtain ⟨later, soundAfter, batonStep⟩ := sound.monitor.step moved
  refine ⟨later, soundAfter, ?_, follows⟩
  have safe := sound.safe
  have mine := sound.follows p
  cases batonStep with
  | keep held =>
      subst held
      exact SafeAt.execute safe mine executed ((sound.monitor.baton.active p).mpr rfl)
        ((soundAfter.baton.active p).mpr rfl)
  | take wants held granted =>
      subst held
      have quiet := (Monitor.step_move moved).2.quiet (Monitor.wants_outside wants).1
      simp only [Safe, granted]
      exact (Given.granted safe wants mine).congr rfl quiet.2
  | block wants elsewhere pending =>
      obtain ⟨notInside, idle⟩ := Monitor.wants_outside wants
      have quiet := (Monitor.step_move moved).2.quiet notInside
      cases holder with
      | process q =>
          have different : q ≠ p := by
            rintro rfl
            have active := (sound.monitor.baton.active q).mpr rfl
            simp [Monitor.Active, notInside, idle] at active
          simp only [Safe, Monitor.step_pc_other moved different]
          exact SafeAt.congr safe rfl quiet.2
      | semaphore s => exact Given.congr safe rfl quiet.2
  | drop gives held empty =>
      subst held
      exact (SafeAt.given safe gives).congr rfl (execute_gives gives executed)
  | pass gives held queue different =>
      subst held
      have pending := sound.monitor.baton.queued _ _ (queue ▸ List.mem_cons_self)
      simp only [Safe, Monitor.step_pc_other moved different]
      exact ((SafeAt.given safe gives).received pending).congr rfl (execute_gives gives executed)

theorem call_sound {monitor called : Monitor π Cv} {target : Call Cv}
    (sound : monitor.Sound (.process p)) (awake : monitor.sems.state p ≠ .taskSleeping)
    (here : monitor.pc p = .body) (moved : monitor.call p target = some called) :
    called.Sound (.process p) := by
  have stepped : monitor.step ⟨p, some target⟩ = some called := by
    simp only [Monitor.step, if_neg awake]
    exact moved
  obtain ⟨later, soundAfter, batonStep⟩ := sound.step stepped
  cases batonStep with
  | keep => exact soundAfter
  | take wants => simp [here, Pc.wants] at wants
  | block wants => simp [here, Pc.wants] at wants
  | drop gives => simp [here, Pc.gives] at gives
  | pass gives => simp [here, Pc.gives] at gives

theorem Sound.loop (sound : state.Sound role holder)
    (awake : state.monitor.sems.state p ≠ .taskSleeping) (here : state.monitor.pc p = .body)
    (move : Move (role p) state p after) : after.Sound role (.process p) := by
  have active : state.monitor.Active p := .inl (by rw [here]; rfl)
  have held := (sound.monitor.baton.active p).mp active
  subst held
  have soundMonitor := sound.monitor
  have safe := sound.safe
  have called : ∀ target called, state.monitor.call p target = some called →
      called.Sound (.process p) := fun _ _ => call_sound sound.monitor awake here
  -- Only the moving thread's own line and program counter need a look.
  have follows : ∀ line pc, Follows (role p) line pc → ∀ q,
      Follows (role q) (Function.update state.line p line q)
        (Function.update state.monitor.pc p pc q) := by
    intro line pc mine q
    by_cases same : q = p
    · subst same
      simpa using mine
    · simpa [same] using sound.follows q
  have stays : Function.update state.monitor.pc p .body = state.monitor.pc := by
    rw [← here, Function.update_eq_self]
  have followsBody : ∀ line q, Follows (role q) (Function.update state.line p line q)
      (state.monitor.pc q) := by
    intro line q
    have all := follows line .body trivial q
    rwa [stays] at all
  simp only [Safe, here, SafeAt] at safe
  cases move with
  | wait line stuck =>
      simp only [line] at safe
      refine ⟨called (.wait (role p)) _ (by simp [Monitor.call, here]), ?_,
        follows .add (.waitCount (role p)) ⟨rfl, rfl⟩⟩
      simp only [Safe, Monitor.goto, goto, Function.update_self]
      exact ⟨safe.congr rfl rfl, stuck⟩
  | pass line free =>
      simp only [line] at safe
      refine ⟨soundMonitor, ?_, followsBody .add⟩
      simp only [Safe, goto, Function.update_self, here]
      obtain ⟨lower, upper, own, foreign⟩ := safe (role p)
      refine ⟨lower, by simp only; omega, ?_, foreign⟩
      intro waiting
      exact absurd (own waiting) free
  | add line raised =>
      simp only [line] at safe
      refine ⟨soundMonitor, ?_, followsBody .print⟩
      simp only [Safe, goto, Function.update_self, here]
      obtain ⟨lower, upper, own, foreign⟩ := safe
      refine ⟨by simp only; omega, by simp only; omega, ?_, ?_⟩
      · intro waiting
        have level := own waiting
        simp only
        omega
      · intro waiting
        have level := foreign waiting
        simp only
        omega
  | print line =>
      simp only [line] at safe
      refine ⟨soundMonitor, ?_, followsBody .check⟩
      simp only [Safe, goto, Function.update_self, here]
      exact ⟨safe.lower, safe.upper, safe.own, safe.foreign⟩
  | signal line ready =>
      simp only [line] at safe
      refine ⟨called (.signal (role p).other) _ (by simp [Monitor.call, here]), ?_,
        follows .leave (.signalTest (role p).other) ⟨rfl, rfl⟩⟩
      simp only [Safe, Monitor.goto, goto, Function.update_self]
      have mirror := Cv.level_other (role p) state.buffer
      refine ⟨by simp only; omega, ?_⟩
      simp only [Cv.other_other]
      by_contra waiting
      have level := safe.own (by omega)
      omega
  | skip line unready =>
      simp only [line] at safe
      refine ⟨soundMonitor, ?_, followsBody .leave⟩
      simp only [Safe, goto, Function.update_self, here]
      obtain ⟨lower, upper, own, foreign⟩ := safe
      refine @Within.free _ _ (role p) ⟨by simp only; omega, upper, own, ?_⟩
      intro waiting
      exact absurd (foreign waiting) unready
  | leave line =>
      simp only [line] at safe
      refine ⟨called .leave _ (by simp [Monitor.call, here]), ?_, follows .test .leaveTest rfl⟩
      simp only [Safe, Monitor.goto, goto, Function.update_self]
      exact safe.congr rfl rfl

omit [DecidableEq π] in
theorem Sound.initial : (testMonitor : ProducerConsumer π).Sound role (.semaphore .mutex) := by
  refine ⟨Monitor.Sound.initial, ?_, ?_⟩
  · refine @Within.free _ _ .producer ⟨?_, ?_, ?_, ?_⟩ <;>
      simp [testMonitor, monitorInit, Cv.level]
  · intro p
    rfl

theorem sound_of_reachable (reached : (machine role).Reachable state) :
    ∃ holder, state.Sound role holder := by
  apply reached.invariant
  · rintro _ rfl
    exact ⟨_, Sound.initial⟩
  · rintro before p after ⟨holder, sound⟩ moved
    obtain ⟨awake, ⟨here, move⟩ | ⟨monitor, executed, rfl⟩⟩ := step_cases moved
    · exact ⟨_, sound.loop awake here move⟩
    · exact sound.execute awake executed

/-! ## Consequences for the buffer and for the sleepers -/

omit [DecidableEq π] [Fintype π] in
theorem bounds_of_level {side : Cv} (lower : 0 ≤ side.level state.buffer)
    (upper : side.level state.buffer ≤ 5) : 0 ≤ state.buffer ∧ state.buffer ≤ 5 := by
  cases side <;> simp only [Cv.level] at lower upper <;> omega

omit [DecidableEq π] [Fintype π] in
theorem Within.bounds {side : Cv} {low high : Int} (within : state.Within side low high)
    (lower : 0 ≤ low) (upper : high ≤ 5) : 0 ≤ state.buffer ∧ state.buffer ≤ 5 :=
  bounds_of_level (Int.le_trans lower within.lower) (Int.le_trans within.upper upper)

omit [DecidableEq π] [Fintype π] in
theorem Free.bounds (free : state.Free) : 0 ≤ state.buffer ∧ state.buffer ≤ 5 :=
  (free .producer).bounds (by decide) (by decide)

omit [DecidableEq π] [Fintype π] in
theorem HandOver.bounds {cond : Cv} (handOver : state.HandOver cond) :
    0 ≤ state.buffer ∧ state.buffer ≤ 5 :=
  handOver.within.bounds (by decide) (by decide)

omit [DecidableEq π] [Fintype π] in
theorem SafeAt.bounds {side : Cv} {line : Line} {pc : Pc Cv} (safe : state.SafeAt side line pc) :
    0 ≤ state.buffer ∧ state.buffer ≤ 5 := by
  cases pc with
  | body =>
      cases line with
      | add => exact Within.bounds safe (by decide) (by decide)
      | print => exact Within.bounds safe (by decide) (by decide)
      | check => exact Within.bounds safe (by decide) (by decide)
      | test => exact Free.bounds safe
      | leave => exact Free.bounds safe
  | waitCount cond => exact Free.bounds safe.1
  | waiting cond => exact HandOver.bounds safe
  | waitUncount cond => exact HandOver.bounds safe
  | waitPrint cond => exact HandOver.bounds safe
  | signalTest cond => exact HandOver.bounds safe
  | signalCount cond => exact HandOver.bounds safe
  | signalWake cond => exact HandOver.bounds safe
  | _ => exact Free.bounds safe

omit [DecidableEq π] in
theorem Sound.bounds (sound : state.Sound role holder) : 0 ≤ state.buffer ∧ state.buffer ≤ 5 := by
  have safe := sound.safe
  cases holder with
  | process p => exact SafeAt.bounds safe
  | semaphore s =>
      cases s with
      | mutex => exact Free.bounds safe
      | next => exact Free.bounds safe
      | xSem cond => exact HandOver.bounds safe

/-- The last statement of a `wait(cond)`. -/
theorem Sound.wait_returns {cond : Cv} (sound : state.Sound role holder)
    (here : state.monitor.pc p = .waitPrint cond) (moved : step role state p = some after) :
    after.monitor.pc p = .body ∧ cond.level after.buffer = 4 := by
  have held := (sound.monitor.baton.active p).mp (.inl (by rw [here]; rfl))
  subst held
  have safe := sound.safe
  simp only [Safe, here] at safe
  have handed : state.HandOver cond := safe
  obtain ⟨awake, ⟨body, _⟩ | ⟨monitor, executed, rfl⟩⟩ := step_cases moved
  · rw [here] at body
    contradiction
  · simp only [Monitor.execute, here] at executed
    cases executed
    exact ⟨by simp, handed.level⟩

omit [DecidableEq π] in
theorem Sound.free_monitor (sound : state.Sound role holder)
    (free : (state.monitor.sems.sem .mutex).value = 1) : state.Free := by
  have held := (sound.monitor.baton.positive .mutex).mp (by omega)
  subst held
  exact sound.safe

omit [DecidableEq π] in
theorem Sound.asleep_pending (sound : state.Sound role holder)
    (asleep : state.monitor.sems.state p = .taskSleeping) :
    ∃ s, p ∈ (state.monitor.sems.sem s).queue ∧ (state.monitor.pc p).pending = some s := by
  obtain ⟨s, member⟩ := (sound.monitor.baton.consistent.sleeping p).mp asleep
  exact ⟨s, member, sound.monitor.baton.queued p s member⟩

omit [DecidableEq π] in
/-- With the baton in `mutex`, a sleeping thread is one that waits on its condition. -/
theorem Sound.asleep_waits (sound : state.Sound role (.semaphore .mutex))
    (asleep : state.monitor.sems.state p = .taskSleeping) :
    0 < state.monitor.xCount (role p) := by
  obtain ⟨s, member, pending⟩ := sound.asleep_pending asleep
  have follows := sound.follows p
  cases here : state.monitor.pc p <;> rw [here] at pending follows <;> cases pending
  case entering =>
      have positive := (sound.monitor.baton.positive .mutex).mpr rfl
      have empty := sound.monitor.baton.consistent.queue_eq_nil (Int.le_of_lt positive)
      simp [empty] at member
  case signaling =>
      have counted : 0 < tally state.monitor.pc Pc.countsNext :=
        tally_pos_iff.mpr ⟨p, by rw [here]; rfl⟩
      have exact := sound.monitor.nextCount
      have fetched : state.monitor.nextCount ≤ 0 := sound.monitor.fetched
      omega
  case waiting cond =>
      obtain ⟨rfl, _⟩ := follows
      have counted : 0 < tally state.monitor.pc (Pc.countsX (role p)) :=
        tally_pos_iff.mpr ⟨p, by simp [here, Pc.countsX]⟩
      have exact := sound.monitor.xCount (role p)
      omega

omit [DecidableEq π] in
theorem Sound.somebody_awake {producer consumer : π} (sound : state.Sound role holder)
    (produces : role producer = .producer) (consumes : role consumer = .consumer) :
    ∃ p, state.monitor.sems.state p ≠ .taskSleeping := by
  by_contra all
  have asleep : ∀ p, state.monitor.sems.state p = .taskSleeping := by
    intro p
    by_contra awake
    exact all ⟨p, awake⟩
  cases holder with
  | process p =>
      obtain ⟨s, _, pending⟩ := sound.asleep_pending (asleep p)
      have outside := Monitor.pending_inside (show (state.monitor.pc p).pending ≠ none by simp [pending])
      have active := (sound.monitor.baton.active p).mpr rfl
      simp [Monitor.Active, outside, asleep p] at active
  | semaphore s =>
      have notFetched : ∀ p t, (state.monitor.pc p).wants ≠ some t := by
        intro p t wants
        obtain ⟨_, _, pending⟩ := sound.asleep_pending (asleep p)
        rw [(Monitor.wants_outside wants).2] at pending
        contradiction
      have fetched := sound.monitor.fetched
      cases s with
      | mutex =>
          have free : state.Free := sound.safe
          have full := (free .producer).own (produces ▸ sound.asleep_waits (asleep producer))
          have empty := (free .consumer).own (consumes ▸ sound.asleep_waits (asleep consumer))
          simp only [Cv.level] at full empty
          omega
      | next =>
          obtain ⟨p, wants⟩ := fetched
          exact notFetched p _ wants
      | xSem cond =>
          obtain ⟨p, wants⟩ := fetched
          exact notFetched p _ wants

/-- Any number of producers and consumers in any interleaving: the buffer keeps
its bounds, a `wait` returns to a buffer that fits, whoever waits while the
monitor is free has a reason to, and the threads never all sleep. -/
theorem producer_consumer (reached : (machine role).Reachable state) :
    (0 ≤ state.buffer ∧ state.buffer ≤ 5) ∧
      (∀ p after, step role state p = some after →
        (state.monitor.pc p = .waitPrint .producer →
          after.monitor.pc p = .body ∧ after.buffer = 4) ∧
        (state.monitor.pc p = .waitPrint .consumer →
          after.monitor.pc p = .body ∧ after.buffer = 1)) ∧
      ((state.monitor.sems.sem .mutex).value = 1 →
        (0 < state.monitor.xCount .producer → state.buffer = 5) ∧
        (0 < state.monitor.xCount .consumer → state.buffer = 0)) ∧
      ((∃ p, role p = .producer) → (∃ p, role p = .consumer) →
        ∃ p, state.monitor.sems.state p ≠ .taskSleeping) := by
  obtain ⟨holder, sound⟩ := sound_of_reachable reached
  refine ⟨sound.bounds, ?_, ?_, ?_⟩
  · intro p after moved
    constructor
    · intro here
      exact sound.wait_returns here moved
    · intro here
      obtain ⟨body, level⟩ := sound.wait_returns here moved
      simp only [Cv.level] at level
      exact ⟨body, by omega⟩
  · intro free
    have within := sound.free_monitor free
    constructor
    · intro waiting
      exact (within .producer).own waiting
    · intro waiting
      have level := (within .consumer).own waiting
      simp only [Cv.level] at level
      omega
  · rintro ⟨producer, produces⟩ ⟨consumer, consumes⟩
    exact sound.somebody_awake produces consumes

def oneOfEach : Fin 2 → Cv
  | 0 => .producer
  | 1 => .consumer

/-- The consumer finds the buffer empty and waits; the producer fills one slot,
signals and sleeps; the consumer runs up to the last statement of its `wait`. -/
def handedOver : List (Fin 2) :=
  [1, 1, 1, 1, 1, 1, 0, 0, 0, 0, 0, 0, 0, 0, 0, 1, 1]

theorem producer_consumer_handed_over :
    ∃ state after : ProducerConsumer (Fin 2),
      (machine oneOfEach).run testMonitor handedOver = some state ∧
      step oneOfEach state 1 = some after ∧
      state.monitor.pc 1 = .waitPrint .consumer ∧
      (after.monitor.pc 1 = .body ∧ after.buffer = 1) ∧
      (∃ p, state.monitor.sems.state p ≠ .taskSleeping) := by
  have runs : ((machine oneOfEach).run testMonitor handedOver).any (fun state =>
      decide (state.monitor.pc 1 = .waitPrint .consumer) && (step oneOfEach state 1).isSome) =
        true := by
    decide +kernel
  cases ran : (machine oneOfEach).run testMonitor handedOver with
  | none => simp [ran] at runs
  | some state =>
      simp only [ran, Option.any_some, Bool.and_eq_true, decide_eq_true_eq,
        Option.isSome_iff_exists] at runs
      obtain ⟨here, after, moved⟩ := runs
      obtain ⟨_, returns, _, awake⟩ := producer_consumer (.run (.start rfl) ran)
      exact ⟨state, after, rfl, moved, here, (returns 1 after moved).2 here,
        awake ⟨0, rfl⟩ ⟨1, rfl⟩⟩

end Preservation

end ProducerConsumer

end WindOs.Sync
