import Mathlib.Data.Fintype.Option
import WindOs.Data.Machine
import WindOs.Sync.Semaphore

namespace WindOs.Sync

open Data

universe v

/-! # The semaphore version of productor_consumer.c

One producer and any number of consumers share `buffer_s`.  `P` and `V` are
single steps; the producer's test of `buffer_s` and the load and the store of
each update are steps of their own, so other threads run in between.
-/

inductive BufferSem where
  | empty
  | full
  | mutex
deriving DecidableEq, Repr

/-- The next statement of a thread.  `load` and `store` are the two halves of
`buffer_s += 1` and of `buffer_s -= 1`. -/
inductive BufferLine where
  | test
  | take
  | lock
  | load
  | store
  | print
  | unlock
  | post
deriving DecidableEq, Repr

/-- The producer has seen room and not yet stored. -/
def BufferLine.committed : BufferLine → Bool
  | .lock | .load | .store => true
  | _ => false

/-- `none` is the producer and `some c` a consumer.  `increments` and `decrements`
count the completed updates and are read by nobody. -/
structure SharedBuffer (κ : Type v) where
  sems : Sems BufferSem (Option κ)
  buffer : Int
  line : Option κ → BufferLine
  register : Option κ → Int
  increments : Nat
  decrements : Nat

namespace SharedBuffer

variable {κ : Type v} [DecidableEq κ]

/-- `test_semaphore`. -/
def testSemaphore : SharedBuffer κ where
  sems :=
    { sem := fun
        | .empty => semaphoreInit 5
        | .full => semaphoreInit 0
        | .mutex => semaphoreInit 1
      state := fun _ => .taskRunnable }
  buffer := 0
  line := fun
    | none => .test
    | some _ => .take
  register := fun _ => 0
  increments := 0
  decrements := 0

def goto (state : SharedBuffer κ) (p : Option κ) (line : BufferLine) : SharedBuffer κ :=
  { state with line := Function.update state.line p line }

def callP (state : SharedBuffer κ) (p : Option κ) (s : BufferSem) (line : BufferLine) :
    SharedBuffer κ :=
  { state.goto p line with sems := state.sems.P s p }

def callV (state : SharedBuffer κ) (p : Option κ) (s : BufferSem) (line : BufferLine) :
    SharedBuffer κ :=
  { state.goto p line with sems := state.sems.V s }

def load (state : SharedBuffer κ) (p : Option κ) : SharedBuffer κ :=
  { state.goto p .store with register := Function.update state.register p state.buffer }

def producerSemaphore (state : SharedBuffer κ) (p : Option κ) : Option (SharedBuffer κ) :=
  match state.line p with
  | .test => some (state.goto p (if state.buffer < 5 then .lock else .test))
  | .lock => some (state.callP p .mutex .load)
  | .load => some (state.load p)
  | .store =>
      some { state.goto p .print with
        buffer := state.register p + 1
        increments := state.increments + 1 }
  | .print => some (state.goto p .unlock)
  | .unlock => some (state.callV p .mutex .post)
  | .post => some (state.callV p .full .test)
  | .take => none

def consumerSemaphore (state : SharedBuffer κ) (p : Option κ) : Option (SharedBuffer κ) :=
  match state.line p with
  | .take => some (state.callP p .full .lock)
  | .lock => some (state.callP p .mutex .load)
  | .load => some (state.load p)
  | .store =>
      some { state.goto p .print with
        buffer := state.register p - 1
        decrements := state.decrements + 1 }
  | .print => some (state.goto p .unlock)
  | .unlock => some (state.callV p .mutex .take)
  | .test | .post => none

def step (state : SharedBuffer κ) (p : Option κ) : Option (SharedBuffer κ) :=
  if state.sems.state p = .taskSleeping then none
  else match p with
    | none => state.producerSemaphore p
    | some _ => state.consumerSemaphore p

def machine : Machine (SharedBuffer κ) (Option κ) where
  start state := state = testSemaphore
  step := step

/-- The thread has returned from `P(&mutex)` and not yet called `V(&mutex)`. -/
def Inside (state : SharedBuffer κ) (p : Option κ) : Prop :=
  (state.line p = .load ∨ state.line p = .store ∨ state.line p = .print ∨
    state.line p = .unlock) ∧ state.sems.state p ≠ .taskSleeping

/-- The threads that a counter has already been charged for: those past
`P(&mutex)`, and those whose `buffer_s` update and whose use of `full_s` are not
both done. -/
def charged : BufferSem → Option κ × BufferLine → Bool
  | .mutex, (_, .load) | .mutex, (_, .store) | .mutex, (_, .print) | .mutex, (_, .unlock) => true
  | .full, (none, .print) | .full, (none, .unlock) | .full, (none, .post) => true
  | .full, (some _, .lock) | .full, (some _, .load) | .full, (some _, .store) => true
  | _, _ => false

/-- Where a thread that sleeps on a semaphore goes on. -/
def awaits : BufferSem → Option κ × BufferLine → Bool
  | .mutex, (_, .load) => true
  | .full, (some _, .lock) => true
  | _, _ => false

def supply (buffer : Int) : BufferSem → Int
  | .empty => 5
  | .full => buffer
  | .mutex => 1

section Invariant

variable [Fintype κ] {state after : SharedBuffer κ} {p q : Option κ} {s : BufferSem}
  {next : BufferLine}

def charges (state : SharedBuffer κ) (s : BufferSem) : Nat :=
  tally (fun p => (p, state.line p)) (charged s)

/-- Every counter is its supply less its charges, and who sleeps on it is charged. -/
structure Permits (state : SharedBuffer κ) : Prop where
  consistent : state.sems.Consistent
  queued : ∀ s p, p ∈ (state.sems.sem s).queue → awaits s (p, state.line p) = true
  value : ∀ s, (state.sems.sem s).value = supply state.buffer s - state.charges s

/-- What the threads know about the buffer. -/
structure Updates (state : SharedBuffer κ) : Prop where
  loaded : ∀ p, state.line p = .store → state.register p = state.buffer
  room : (state.line none).committed = true → state.buffer ≤ 4
  upper : state.buffer ≤ 5
  ledger : state.buffer = state.increments - state.decrements

omit [DecidableEq κ] [Fintype κ] in
theorem awaits_charged {place : Option κ × BufferLine} (waits : awaits s place = true) :
    charged s place = true := by
  obtain ⟨thread, line⟩ := place
  cases s <;> cases thread <;> cases line <;> simp_all [awaits, charged]

/-- Moving one thread changes the charges by that thread alone. -/
theorem charges_goto (state : SharedBuffer κ) (p : Option κ) (next : BufferLine) (s : BufferSem) :
    (state.goto p next).charges s + (if charged s (p, state.line p) then 1 else 0) =
      state.charges s + (if charged s (p, next) then 1 else 0) := by
  have places : (fun q => (q, (state.goto p next).line q)) =
      Function.update (fun q => (q, state.line q)) p (p, next) := by
    funext q
    by_cases same : q = p
    · subst same
      simp [goto]
    · simp [goto, same]
  rw [charges, places]
  exact tally_update _ _ _ _

theorem Permits.queue_charged (permits : state.Permits) :
    (state.sems.sem s).queue.length ≤ state.charges s :=
  length_le_tally (permits.consistent.nodup s)
    (fun p member => awaits_charged (permits.queued s p member))

/-- The buffer covers the charges of `full_s` that are not asleep. -/
theorem Permits.lower (permits : state.Permits) : 0 ≤ state.buffer := by
  have value := permits.value .full
  have covered := permits.queue_charged (s := .full)
  have waiting := permits.consistent.waiting .full
  simp only [supply] at value
  omega

theorem Permits.exclusive (permits : state.Permits) (first : state.Inside p)
    (second : state.Inside q) : p = q := by
  by_contra different
  have passes : ∀ r, state.Inside r → charged .mutex (r, state.line r) = true := by
    intro r inside
    obtain ⟨here | here | here | here, _⟩ := inside <;> simp [here, charged]
  have outside : ∀ r, state.Inside r → r ∉ (state.sems.sem .mutex).queue :=
    fun r inside => permits.consistent.not_queued inside.2
  have counted : (p :: q :: (state.sems.sem .mutex).queue).length ≤ state.charges .mutex := by
    apply length_le_tally
    · simp [different, outside p first, outside q second, permits.consistent.nodup]
    · intro r member
      obtain rfl | rfl | waits : r = p ∨ r = q ∨ r ∈ (state.sems.sem .mutex).queue := by
        simpa using member
      · exact passes r first
      · exact passes r second
      · exact awaits_charged (permits.queued .mutex r waits)
  have value := permits.value .mutex
  have waiting := permits.consistent.waiting .mutex
  simp only [supply] at value
  simp only [List.length_cons] at counted
  omega

/-- Who sleeps on a semaphore is not the thread that moves. -/
theorem Permits.queued_goto (permits : state.Permits)
    (awake : state.sems.state p ≠ .taskSleeping) (member : q ∈ (state.sems.sem s).queue) :
    awaits s (q, (state.goto p next).line q) = true := by
  have different : q ≠ p := fun equal =>
    permits.consistent.not_queued awake (equal ▸ member)
  simpa [SharedBuffer.goto, different] using permits.queued s q member

theorem Permits.goto (permits : state.Permits) (awake : state.sems.state p ≠ .taskSleeping)
    (same : ∀ s, charged s (p, next) = charged s (p, state.line p)) :
    (state.goto p next).Permits := by
  refine ⟨permits.consistent, ?_, ?_⟩
  · intro s q member
    exact permits.queued_goto awake member
  · intro s
    have charge := charges_goto state p next s
    rw [same s] at charge
    have value := permits.value s
    change (state.sems.sem s).value = supply state.buffer s - _
    omega

theorem Permits.callP (permits : state.Permits) (awake : state.sems.state p ≠ .taskSleeping)
    (waits : awaits s (p, next) = true) (uncharged : charged s (p, state.line p) = false)
    (same : ∀ other, other ≠ s → charged other (p, next) = charged other (p, state.line p)) :
    (state.callP p s next).Permits := by
  refine ⟨permits.consistent.P awake, ?_, ?_⟩
  · intro other q member
    change q ∈ ((state.sems.P s p).sem other).queue at member
    obtain before | ⟨_, rfl, rfl⟩ := Sems.mem_P_queue.mp member
    · exact permits.queued_goto awake before
    · simpa [SharedBuffer.callP, SharedBuffer.goto] using waits
  · intro other
    have charge := charges_goto state p next other
    have value := permits.value other
    change ((state.sems.P s p).sem other).value =
      supply state.buffer other - ((state.goto p next).charges other : Int)
    rw [Sems.P_value]
    by_cases here : other = s
    · subst here
      rw [if_pos rfl]
      simp only [uncharged, awaits_charged waits, if_true, Bool.false_eq_true, if_false] at charge
      omega
    · rw [if_neg here]
      rw [same other here] at charge
      omega

theorem Permits.callV (permits : state.Permits) (awake : state.sems.state p ≠ .taskSleeping)
    (held : charged s (p, state.line p) = true) (returned : charged s (p, next) = false)
    (same : ∀ other, other ≠ s → charged other (p, next) = charged other (p, state.line p)) :
    (state.callV p s next).Permits := by
  refine ⟨permits.consistent.V, ?_, ?_⟩
  · intro other q member
    have before : q ∈ (state.sems.sem other).queue := Sems.V_queue_sublist.subset member
    exact permits.queued_goto awake before
  · intro other
    have charge := charges_goto state p next other
    have value := permits.value other
    change ((state.sems.V s).sem other).value =
      supply state.buffer other - ((state.goto p next).charges other : Int)
    rw [Sems.V_value]
    by_cases here : other = s
    · subst here
      rw [if_pos rfl]
      simp only [held, returned, if_true, Bool.false_eq_true, if_false] at charge
      omega
    · rw [if_neg here]
      rw [same other here] at charge
      omega

/-- A store moves one unit between the buffer and what `full_s` is charged for. -/
theorem Permits.store {buffer : Int} {increments decrements : Nat} (permits : state.Permits)
    (awake : state.sems.state p ≠ .taskSleeping) (here : state.line p = .store)
    (change : buffer = state.buffer + (if p = none then 1 else -1)) :
    ({ state.goto p .print with buffer, increments, decrements } : SharedBuffer κ).Permits := by
  refine ⟨permits.consistent, ?_, ?_⟩
  · intro s q member
    exact permits.queued_goto awake member
  · intro s
    have charge := charges_goto state p .print s
    have value := permits.value s
    change (state.sems.sem s).value = supply buffer s - ((state.goto p .print).charges s : Int)
    rw [here] at charge
    cases s <;> cases p <;> simp [charged, supply] at charge value change ⊢ <;> omega

omit [Fintype κ] in
theorem Updates.goto {sems : Sems BufferSem (Option κ)} (updates : state.Updates)
    (notStore : next ≠ .store) (room : p = none → next.committed = true → state.buffer ≤ 4) :
    ({ state.goto p next with sems } : SharedBuffer κ).Updates := by
  refine ⟨?_, ?_, updates.upper, updates.ledger⟩
  · intro q here
    by_cases same : q = p
    · subst same
      simp only [SharedBuffer.goto, Function.update_self] at here
      exact absurd here notStore
    · simp only [SharedBuffer.goto, Function.update_of_ne same] at here
      exact updates.loaded q here
  · intro committed
    by_cases same : none = p
    · subst same
      simp only [SharedBuffer.goto, Function.update_self] at committed
      exact room rfl committed
    · simp only [SharedBuffer.goto, Function.update_of_ne same] at committed
      exact updates.room committed

omit [Fintype κ] in
theorem Updates.load (updates : state.Updates) (here : state.line p = .load) :
    (state.load p).Updates := by
  refine ⟨?_, ?_, updates.upper, updates.ledger⟩
  · intro q stores
    by_cases same : q = p
    · subst same
      simp [SharedBuffer.load, SharedBuffer.goto]
    · simp only [SharedBuffer.load, SharedBuffer.goto, Function.update_of_ne same] at stores ⊢
      exact updates.loaded q stores
  · intro committed
    by_cases same : none = p
    · subst same
      exact updates.room (by rw [here]; rfl)
    · simp only [SharedBuffer.load, SharedBuffer.goto, Function.update_of_ne same] at committed
      exact updates.room committed

/-- Only the thread that stores is past its load, so nobody's loaded value goes stale. -/
theorem Updates.store {buffer : Int} {increments decrements : Nat} (updates : state.Updates)
    (permits : state.Permits) (awake : state.sems.state p ≠ .taskSleeping)
    (here : state.line p = .store) (upper : buffer ≤ 5) (lower : p ≠ none → buffer ≤ state.buffer)
    (ledger : buffer = increments - decrements) :
    ({ state.goto p .print with buffer, increments, decrements } : SharedBuffer κ).Updates := by
  have inside : state.Inside p := ⟨.inr (.inl here), awake⟩
  refine ⟨?_, ?_, upper, ledger⟩
  · intro q stores
    by_cases same : q = p
    · subst same
      simp [SharedBuffer.goto] at stores
    · simp only [SharedBuffer.goto, Function.update_of_ne same] at stores
      have awakeToo : state.sems.state q ≠ .taskSleeping := by
        intro asleep
        obtain ⟨s, member⟩ := (permits.consistent.sleeping q).mp asleep
        have waits := permits.queued s q member
        rw [stores] at waits
        cases s <;> cases q <;> simp [awaits] at waits
      exact absurd (permits.exclusive ⟨.inr (.inl stores), awakeToo⟩ inside) same
  · intro committed
    by_cases same : none = p
    · subst same
      simp [SharedBuffer.goto, BufferLine.committed] at committed
    · simp only [SharedBuffer.goto, Function.update_of_ne same] at committed
      have room := updates.room committed
      have fewer := lower (fun equal => same equal.symm)
      change buffer ≤ 4
      omega

structure Sound (state : SharedBuffer κ) : Prop where
  permits : state.Permits
  updates : state.Updates

omit [DecidableEq κ] in
theorem sound_testSemaphore : (testSemaphore : SharedBuffer κ).Sound := by
  have uncharged : ∀ s, (testSemaphore : SharedBuffer κ).charges s = 0 := by
    intro s
    rw [charges, tally_eq_zero_iff]
    intro p
    cases s <;> cases p <;> rfl
  have initial : (testSemaphore : SharedBuffer κ).sems.Initial := by
    refine ⟨?_, ?_, ?_⟩
    · intro s
      cases s <;> rfl
    · intro s
      cases s <;> simp [testSemaphore, semaphoreInit]
    · intro p
      simp [testSemaphore]
  refine ⟨⟨initial.consistent, ?_, ?_⟩, ?_, ?_, by simp [testSemaphore], rfl⟩
  · intro s p member
    rw [initial.consistent.queue_eq_nil (initial.nonneg s)] at member
    simp at member
  · intro s
    rw [uncharged s]
    cases s <;> rfl
  · intro p here
    cases p <;> cases here
  · intro committed
    simp [testSemaphore, BufferLine.committed] at committed

/-- The statements that both kinds of thread have in common, as far as the
counters see them. -/
theorem Sound.goto (sound : state.Sound) (awake : state.sems.state p ≠ .taskSleeping)
    (same : ∀ s, charged s (p, next) = charged s (p, state.line p)) (notStore : next ≠ .store)
    (room : p = none → next.committed = true → state.buffer ≤ 4) : (state.goto p next).Sound :=
  ⟨sound.permits.goto awake same, sound.updates.goto notStore room⟩

theorem Sound.load (sound : state.Sound) (awake : state.sems.state p ≠ .taskSleeping)
    (here : state.line p = .load) : (state.load p).Sound := by
  have same : ∀ s, charged s (p, .store) = charged s (p, state.line p) := by
    intro s
    rw [here]
    cases s <;> cases p <;> rfl
  have moved := sound.permits.goto awake same
  exact ⟨⟨moved.consistent, moved.queued, moved.value⟩, sound.updates.load here⟩

theorem Sound.callP (sound : state.Sound) (awake : state.sems.state p ≠ .taskSleeping)
    (waits : awaits s (p, next) = true) (uncharged : charged s (p, state.line p) = false)
    (same : ∀ other, other ≠ s → charged other (p, next) = charged other (p, state.line p))
    (notStore : next ≠ .store) (room : p = none → next.committed = true → state.buffer ≤ 4) :
    (state.callP p s next).Sound :=
  ⟨sound.permits.callP awake waits uncharged same, sound.updates.goto notStore room⟩

theorem Sound.callV (sound : state.Sound) (awake : state.sems.state p ≠ .taskSleeping)
    (held : charged s (p, state.line p) = true) (returned : charged s (p, next) = false)
    (same : ∀ other, other ≠ s → charged other (p, next) = charged other (p, state.line p))
    (notStore : next ≠ .store) (room : p = none → next.committed = true → state.buffer ≤ 4) :
    (state.callV p s next).Sound :=
  ⟨sound.permits.callV awake held returned same, sound.updates.goto notStore room⟩

theorem Sound.producerSemaphore (sound : state.Sound)
    (awake : state.sems.state none ≠ .taskSleeping)
    (moved : state.producerSemaphore none = some after) : after.Sound := by
  have room := sound.updates.room
  cases here : state.line none <;>
    simp only [SharedBuffer.producerSemaphore, here, Option.some.injEq, reduceCtorEq] at moved <;>
    subst moved
  case test =>
      split
      · next few =>
          apply sound.goto awake (by intro s; rw [here]; cases s <;> rfl) (by decide)
          omega
      · exact sound.goto awake (by intro s; rw [here]) (by decide) (by simp [BufferLine.committed])
  case lock =>
      exact sound.callP awake rfl (by rw [here]; rfl)
        (by intro other different; rw [here]; cases other <;> first | rfl | contradiction)
        (by decide) (fun _ _ => room (by rw [here]; rfl))
  case load => exact sound.load awake here
  case store =>
      have loaded := sound.updates.loaded none here
      have few := room (by rw [here]; rfl)
      have ledger := sound.updates.ledger
      rw [loaded]
      exact ⟨sound.permits.store awake here (by simp),
        sound.updates.store sound.permits awake here (by omega) (by simp)
          (by simp only [SharedBuffer.goto]; omega)⟩
  case print =>
      exact sound.goto awake (by intro s; rw [here]; cases s <;> rfl) (by decide)
        (by simp [BufferLine.committed])
  case unlock =>
      exact sound.callV awake (by rw [here]; rfl) rfl
        (by intro other different; rw [here]; cases other <;> first | rfl | contradiction)
        (by decide) (by simp [BufferLine.committed])
  case post =>
      exact sound.callV awake (by rw [here]; rfl) rfl
        (by intro other different; rw [here]; cases other <;> first | rfl | contradiction)
        (by decide) (by simp [BufferLine.committed])

theorem Sound.consumerSemaphore {c : κ} (sound : state.Sound)
    (awake : state.sems.state (some c) ≠ .taskSleeping)
    (moved : state.consumerSemaphore (some c) = some after) : after.Sound := by
  cases here : state.line (some c) <;>
    simp only [SharedBuffer.consumerSemaphore, here, Option.some.injEq, reduceCtorEq] at moved <;>
    subst moved
  case take =>
      exact sound.callP awake rfl (by rw [here]; rfl)
        (by intro other different; rw [here]; cases other <;> first | rfl | contradiction)
        (by decide) (by simp)
  case lock =>
      exact sound.callP awake rfl (by rw [here]; rfl)
        (by intro other different; rw [here]; cases other <;> first | rfl | contradiction)
        (by decide) (by simp)
  case load => exact sound.load awake here
  case store =>
      have loaded := sound.updates.loaded (some c) here
      have upper := sound.updates.upper
      have ledger := sound.updates.ledger
      rw [loaded]
      exact ⟨sound.permits.store awake here (by simp; omega),
        sound.updates.store sound.permits awake here (by omega) (by omega)
          (by simp only [SharedBuffer.goto]; omega)⟩
  case print =>
      exact sound.goto awake (by intro s; rw [here]; cases s <;> rfl) (by decide) (by simp)
  case unlock =>
      exact sound.callV awake (by rw [here]; rfl) rfl
        (by intro other different; rw [here]; cases other <;> first | rfl | contradiction)
        (by decide) (by simp)

theorem Sound.step (sound : state.Sound) (moved : state.step p = some after) : after.Sound := by
  unfold SharedBuffer.step at moved
  split at moved
  · contradiction
  · next awake =>
      cases p with
      | none => exact sound.producerSemaphore awake moved
      | some c => exact sound.consumerSemaphore awake moved

/-- One producer and any number of consumers in any interleaving: the sections
exclude each other, no update is lost, and the buffer keeps its bounds although
the producer tests it outside the lock. -/
theorem shared_buffer (reached : (machine (κ := κ)).Reachable state) :
    (∀ p q, state.Inside p → state.Inside q → p = q) ∧
      state.buffer = state.increments - state.decrements ∧
      0 ≤ state.buffer ∧ state.buffer ≤ 5 := by
  have sound : state.Sound := reached.invariant
    (fun _ started => started ▸ sound_testSemaphore)
    (fun _ _ _ held moved => held.step moved)
  exact ⟨fun _ _ first second => sound.permits.exclusive first second, sound.updates.ledger,
    sound.permits.lower, sound.updates.upper⟩

/-- The first consumer waits for a product, the producer makes two and tests the
buffer a third time, both consumers go for the lock and one of them gets it. -/
def contended : List (Option (Fin 2)) :=
  [some 0, none, none, none, none, none, none, none, none, none, none, none, none, none, none,
    none, some 1, some 0, some 1, some 0, some 0, none]

theorem shared_buffer_contended :
    ∃ state : SharedBuffer (Fin 2),
      machine.run testSemaphore contended = some state ∧ state.buffer = 1 ∧
        state.Inside (some 0) ∧ state.line none = .load ∧ state.line (some 1) = .load ∧
        (∀ p q, state.Inside p → state.Inside q → p = q) ∧
        state.buffer = state.increments - state.decrements := by
  have runs : (machine.run testSemaphore contended).any (fun state : SharedBuffer (Fin 2) =>
      decide (state.buffer = 1 ∧ (state.line (some 0) = .print ∧
        state.sems.state (some 0) ≠ .taskSleeping) ∧ state.line none = .load ∧
        state.line (some 1) = .load)) = true := by
    decide +kernel
  obtain ⟨state, ran, facts⟩ := (Option.any_eq_true _ _).mp runs
  obtain ⟨one, ⟨prints, awake⟩, blocked, waiting⟩ := of_decide_eq_true facts
  obtain ⟨exclusive, ledger, _⟩ := shared_buffer (.run (.start rfl) ran)
  exact ⟨state, ran, one, ⟨.inr (.inr (.inl prints)), awake⟩, blocked, waiting, exclusive, ledger⟩

end Invariant

end SharedBuffer

end WindOs.Sync
