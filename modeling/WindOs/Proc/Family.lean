import WindOs.Data.Chain
import WindOs.Proc.Accounting

namespace WindOs.Proc

open Data Sync Sched

universe u

/-! # The family tree

The children of a process are chained by `optr` and `yptr`, the youngest first,
and `cptr` of the parent is the head of the chain.
-/

namespace ProcTable

variable {π : Type u} [DecidableEq π] {table : ProcTable π} {ptr : Option π} {q : π}
  {write : Pcb π → Pcb π}

theorem edit_pcb {p : Option π} :
    (table.edit ptr write).pcb p = if p = ptr then write (table.pcb p) else table.pcb p := by
  by_cases same : p = ptr
  · subst same
    simp [edit]
  · simp [edit, same]

@[simp] theorem edit_cptr {p : Option π} : ((table.edit ptr write).pcb p).cptr =
    if p = ptr then (write (table.pcb p)).cptr else (table.pcb p).cptr := by
  rw [edit_pcb, apply_ite Pcb.cptr]

@[simp] theorem edit_optr {p : Option π} : ((table.edit ptr write).pcb p).optr =
    if p = ptr then (write (table.pcb p)).optr else (table.pcb p).optr := by
  rw [edit_pcb, apply_ite Pcb.optr]

@[simp] theorem edit_yptr {p : Option π} : ((table.edit ptr write).pcb p).yptr =
    if p = ptr then (write (table.pcb p)).yptr else (table.pcb p).yptr := by
  rw [edit_pcb, apply_ite Pcb.yptr]

@[simp] theorem edit_parent {p : Option π} : ((table.edit ptr write).pcb p).parent =
    if p = ptr then (write (table.pcb p)).parent else (table.pcb p).parent := by
  rw [edit_pcb, apply_ite Pcb.parent]

@[simp] theorem edit_since {p : Option π} : ((table.edit ptr write).pcb p).since =
    if p = ptr then (write (table.pcb p)).since else (table.pcb p).since := by
  rw [edit_pcb, apply_ite Pcb.since]

@[simp] theorem edit_state {p : Option π} : ((table.edit ptr write).pcb p).state =
    if p = ptr then (write (table.pcb p)).state else (table.pcb p).state := by
  rw [edit_pcb, apply_ite Pcb.state]

@[simp] theorem edit_initProc : (table.edit ptr write).initProc = table.initProc := rfl

@[simp] theorem edit_clock : (table.edit ptr write).clock = table.clock := rfl

@[simp] theorem edit_allocated : (table.edit ptr write).allocated = table.allocated := rfl

@[simp] theorem edit_idle : (table.edit ptr write).idle = table.idle := rfl

/-- Writing through `NULL` is seen by no PCB, so the test for it makes no difference. -/
@[simp] theorem editUnlessNull_pcb : (table.editUnlessNull ptr write).pcb (some q) =
    (table.edit ptr write).pcb (some q) := by
  by_cases null : ptr = none
  · simp [editUnlessNull, null, edit_pcb]
  · simp [editUnlessNull, null]

@[simp] theorem editUnlessNull_initProc :
    (table.editUnlessNull ptr write).initProc = table.initProc := by
  unfold editUnlessNull
  split <;> rfl

@[simp] theorem editUnlessNull_clock :
    (table.editUnlessNull ptr write).clock = table.clock := by
  unfold editUnlessNull
  split <;> rfl

@[simp] theorem editUnlessNull_allocated :
    (table.editUnlessNull ptr write).allocated = table.allocated := by
  unfold editUnlessNull
  split <;> rfl

@[simp] theorem editUnlessNull_idle : (table.editUnlessNull ptr write).idle = table.idle := by
  unfold editUnlessNull
  split <;> rfl

variable {d c init : π}

theorem detach_cptr : ((table.detach (some d) (some c)).pcb (some q)).cptr =
    if q = d then (table.pcb (some c)).optr else (table.pcb (some q)).cptr := by
  simp [detach]

theorem detach_optr : ((table.detach (some d) (some c)).pcb (some q)).optr =
    (table.pcb (some q)).optr := by
  simp [detach]

theorem detach_yptr : ((table.detach (some d) (some c)).pcb (some q)).yptr =
    if (table.pcb (some c)).optr = some q then none
    else if q = c then none else (table.pcb (some q)).yptr := by
  simp [detach, eq_comm]

theorem detach_parent : ((table.detach (some d) (some c)).pcb (some q)).parent =
    (table.pcb (some q)).parent := by
  simp [detach]

theorem detach_since : ((table.detach (some d) (some c)).pcb (some q)).since =
    (table.pcb (some q)).since := by
  simp [detach]

theorem detach_state : ((table.detach (some d) (some c)).pcb (some q)).state =
    (table.pcb (some q)).state := by
  simp [detach]

theorem adopt_cptr (named : table.initProc = some init) :
    ((table.adopt (some c)).pcb (some q)).cptr =
      if q = init then some c else (table.pcb (some q)).cptr := by
  simp [adopt, setParent, named]

theorem adopt_optr (named : table.initProc = some init) :
    ((table.adopt (some c)).pcb (some q)).optr =
      if q = c then (table.pcb (some init)).cptr else (table.pcb (some q)).optr := by
  simp [adopt, setParent, named]

theorem adopt_yptr (named : table.initProc = some init) :
    ((table.adopt (some c)).pcb (some q)).yptr =
      if (table.pcb (some init)).cptr = some q then some c else (table.pcb (some q)).yptr := by
  simp [adopt, setParent, named, eq_comm]

theorem adopt_parent (named : table.initProc = some init) :
    ((table.adopt (some c)).pcb (some q)).parent =
      if q = c then some init else (table.pcb (some q)).parent := by
  simp [adopt, setParent, named]

theorem adopt_since : ((table.adopt (some c)).pcb (some q)).since =
    if q = c then table.clock else (table.pcb (some q)).since := by
  simp [adopt, setParent]

theorem adopt_state : ((table.adopt (some c)).pcb (some q)).state =
    (table.pcb (some q)).state := by
  simp [adopt, setParent]

/-- A wakeup changes a state, and makes no zombie. -/
theorem wake_pcb {choice : Prop} [Decidable choice] :
    ∃ state, (if choice then table.wakeupProcess ptr else table).pcb (some q) =
        { table.pcb (some q) with state } ∧
      (state = .taskZombie → (table.pcb (some q)).state = .taskZombie) := by
  split
  · by_cases same : some q = ptr
    · refine ⟨.taskRunnable, ?_, by simp⟩
      simp [wakeupProcess, edit_pcb, same]
    · refine ⟨(table.pcb (some q)).state, ?_, id⟩
      simp [wakeupProcess, edit_pcb, same]
  · exact ⟨_, rfl, id⟩

theorem removeLinks_optr {z : π} : ((table.removeLinks (some z)).pcb (some q)).optr =
    if (table.pcb (some z)).yptr = some q then (table.pcb (some z)).optr
    else (table.pcb (some q)).optr := by
  by_cases youngest : (table.pcb (some z)).yptr = none
  · simp [removeLinks, youngest]
  · simp [removeLinks, youngest, eq_comm]

theorem removeLinks_cptr {z : π} : ((table.removeLinks (some z)).pcb (some q)).cptr =
    if (table.pcb (some z)).yptr = none ∧ (table.pcb (some z)).parent = some q then
      (table.pcb (some z)).optr
    else (table.pcb (some q)).cptr := by
  by_cases youngest : (table.pcb (some z)).yptr = none
  · simp [removeLinks, youngest, eq_comm]
  · simp [removeLinks, youngest]

theorem removeLinks_yptr {z : π} (notOwn : (table.pcb (some z)).yptr ≠ some z) :
    ((table.removeLinks (some z)).pcb (some q)).yptr =
      if (table.pcb (some z)).optr = some q then (table.pcb (some z)).yptr
      else (table.pcb (some q)).yptr := by
  by_cases youngest : (table.pcb (some z)).yptr = none
  · simp [removeLinks, youngest, eq_comm]
  · simp [removeLinks, youngest, notOwn.symm, eq_comm]

theorem removeLinks_parent {z : π} : ((table.removeLinks (some z)).pcb (some q)).parent =
    (table.pcb (some q)).parent := by
  by_cases youngest : (table.pcb (some z)).yptr = none <;> simp [removeLinks, youngest]

theorem removeLinks_since {z : π} : ((table.removeLinks (some z)).pcb (some q)).since =
    (table.pcb (some q)).since := by
  by_cases youngest : (table.pcb (some z)).yptr = none <;> simp [removeLinks, youngest]

theorem removeLinks_state {z : π} : ((table.removeLinks (some z)).pcb (some q)).state =
    (table.pcb (some q)).state := by
  by_cases youngest : (table.pcb (some z)).yptr = none <;> simp [removeLinks, youngest]

theorem enlist_cptr {pcb : π} : ((table.enlist pcb (some d)).pcb (some q)).cptr =
    if q = d then some pcb else (table.pcb (some q)).cptr := by
  simp [enlist, wakeupProcess, addLinks, setParent]

theorem enlist_optr {pcb : π} : ((table.enlist pcb (some d)).pcb (some q)).optr =
    if q = pcb then (table.pcb (some d)).cptr else (table.pcb (some q)).optr := by
  by_cases new : q = pcb <;> simp [enlist, wakeupProcess, addLinks, setParent, new]

theorem enlist_yptr {pcb : π} : ((table.enlist pcb (some d)).pcb (some q)).yptr =
    if (table.pcb (some d)).cptr = some q then some pcb else (table.pcb (some q)).yptr := by
  simp [enlist, wakeupProcess, addLinks, setParent, eq_comm]

theorem enlist_parent {pcb : π} : ((table.enlist pcb (some d)).pcb (some q)).parent =
    if q = pcb then some d else (table.pcb (some q)).parent := by
  simp [enlist, wakeupProcess, addLinks, setParent]

theorem enlist_since {pcb : π} : ((table.enlist pcb (some d)).pcb (some q)).since =
    if q = pcb then table.clock else (table.pcb (some q)).since := by
  simp [enlist, wakeupProcess, addLinks, setParent]

theorem enlist_state {pcb : π} : ((table.enlist pcb (some d)).pcb (some q)).state =
    if q = pcb then .taskRunnable else (table.pcb (some q)).state := by
  simp [enlist, wakeupProcess, addLinks, setParent]

/-- The list of every process is chained, and its head is `cptr` of the process. -/
structure Linked (table : ProcTable π) (kin : π → List π) : Prop where
  first : ∀ p, table.allocated p = true → (table.pcb (some p)).cptr = (kin p).head?
  chain : ∀ p, table.allocated p = true →
    Chained (fun q => (table.pcb (some q)).optr) (fun q => (table.pcb (some q)).yptr) none (kin p)
  nodup : ∀ p, table.allocated p = true → (kin p).Nodup
  apart : ∀ p, table.allocated p = true → ∀ o, table.allocated o = true →
    ∀ q, q ∈ kin p → q ∈ kin o → p = o

variable {kin : π → List π} {idle p pcb z : π} {after : ProcTable π}

/-- A child leaves the chain of its parent. -/
theorem Linked.remove (linked : table.Linked kin) (live : table.allocated d = true)
    (member : z ∈ kin d) (allocated : ∀ p, after.allocated p = true → table.allocated p = true)
    (cptr : ∀ p, (after.pcb (some p)).cptr =
      if (table.pcb (some z)).yptr = none ∧ p = d then (table.pcb (some z)).optr
      else (table.pcb (some p)).cptr)
    (optr : ∀ q ≠ z, (after.pcb (some q)).optr =
      if (table.pcb (some z)).yptr = some q then (table.pcb (some z)).optr
      else (table.pcb (some q)).optr)
    (yptr : ∀ q ≠ z, (after.pcb (some q)).yptr =
      if (table.pcb (some z)).optr = some q then (table.pcb (some z)).yptr
      else (table.pcb (some q)).yptr) :
    after.Linked fun p => (kin p).erase z := by
  obtain ⟨xs, ys, split⟩ := List.append_of_mem member
  have chain := linked.chain d live
  have nodup := linked.nodup d live
  rw [split] at chain nodup
  obtain ⟨older, younger⟩ := chain.links
  have outside : z ∉ xs := fun inside => (List.nodup_append.mp nodup).2.2 z inside z (by simp) rfl
  have erased : (kin d).erase z = xs ++ ys := by
    rw [split, List.erase_append_right _ outside, List.erase_cons_head]
  have elsewhere : ∀ p, table.allocated p = true → p ≠ d → ∀ q ∈ kin p, q ∉ kin d :=
    fun p here other q inside also => other (linked.apart p here d live q inside also)
  have unchanged : ∀ p, table.allocated p = true → p ≠ d → (kin p).erase z = kin p :=
    fun p here other => List.erase_of_not_mem fun inside => elsewhere p here other z inside member
  constructor
  · intro p here
    rw [cptr]
    by_cases same : p = d
    · rw [same, erased, younger, linked.first d live, split]
      cases xs with
      | nil => simp [older]
      | cons x xs => simp [List.getLast?_cons]
    · rw [if_neg fun both => same both.2, unchanged p (allocated p here) same,
        linked.first p (allocated p here)]
  · intro p here
    by_cases same : p = d
    · rw [same, erased]
      have notZ : ∀ q ∈ xs ++ ys, q ≠ z := by
        rintro q inside rfl
        rw [List.nodup_append, List.nodup_cons] at nodup
        rcases List.mem_append.mp inside with front | back
        · exact outside front
        · exact nodup.2.1.1 back
      exact chain.delete nodup (by simp) (fun q inside => optr q (notZ q inside))
        fun q inside => yptr q (notZ q inside)
    · rw [unchanged p (allocated p here) same]
      have foreign := elsewhere p (allocated p here) same
      have notZ : ∀ q ∈ kin p, q ≠ z := by
        rintro q inside rfl
        exact foreign q inside member
      refine (linked.chain p (allocated p here)).congr ?_ ?_
      · intro q inside
        have notYounger : (table.pcb (some z)).yptr ≠ some q := by
          rw [younger, Option.or_none]
          intro last
          exact foreign q inside (by simp [split, List.mem_of_getLast? last])
        rw [optr q (notZ q inside), if_neg notYounger]
      · intro q inside
        have notOlder : (table.pcb (some z)).optr ≠ some q := by
          rw [older]
          intro first
          exact foreign q inside (by simp [split, List.mem_of_mem_head? first])
        rw [yptr q (notZ q inside), if_neg notOlder]
  · intro p here
    exact (linked.nodup p (allocated p here)).erase z
  · intro p here o there q inside also
    exact linked.apart p (allocated p here) o (allocated o there) q (List.mem_of_mem_erase inside)
      (List.mem_of_mem_erase also)

/-- A process that is in no chain becomes the youngest child. -/
theorem Linked.push (linked : table.Linked kin) (live : table.allocated d = true)
    (absent : ∀ p, table.allocated p = true → c ∉ kin p)
    (allocated : after.allocated = table.allocated)
    (cptr : ∀ p, (after.pcb (some p)).cptr =
      if p = d then some c else (table.pcb (some p)).cptr)
    (optr : ∀ q, (after.pcb (some q)).optr =
      if q = c then (table.pcb (some d)).cptr else (table.pcb (some q)).optr)
    (yptr : ∀ q, (after.pcb (some q)).yptr =
      if (table.pcb (some d)).cptr = some q then some c else (table.pcb (some q)).yptr)
    (youngest : (table.pcb (some c)).yptr = none) :
    after.Linked (Function.update kin d (c :: kin d)) := by
  have head := linked.first d live
  constructor
  all_goals rw [allocated]
  · intro p here
    rw [cptr]
    by_cases same : p = d
    · rw [same, if_pos rfl, Function.update_self]
      rfl
    · rw [if_neg same, Function.update_of_ne same, linked.first p here]
  · intro p here
    by_cases same : p = d
    · rw [same, Function.update_self]
      refine (linked.chain d live).push
        (List.nodup_cons.mpr ⟨absent d live, linked.nodup d live⟩) ?_ ?_ ?_ ?_
      · rw [optr, if_pos rfl, head]
      · have notHead : (table.pcb (some d)).cptr ≠ some c := by
          rw [head]
          intro first
          exact absent d live (List.mem_of_mem_head? first)
        rw [yptr, if_neg notHead, youngest]
      · intro q inside
        rw [optr, if_neg]
        rintro rfl
        exact absent d live inside
      · intro q inside
        rw [yptr, head]
    · rw [Function.update_of_ne same]
      refine (linked.chain p here).congr ?_ ?_
      · intro q inside
        rw [optr, if_neg]
        rintro rfl
        exact absent p here inside
      · intro q inside
        rw [yptr, head, if_neg]
        intro first
        exact same (linked.apart p here d live q inside (List.mem_of_mem_head? first))
  · intro p here
    by_cases same : p = d
    · rw [same, Function.update_self]
      exact List.nodup_cons.mpr ⟨absent d live, linked.nodup d live⟩
    · rw [Function.update_of_ne same]
      exact linked.nodup p here
  · have old : ∀ p, table.allocated p = true → ∀ q,
        q ∈ Function.update kin d (c :: kin d) p → q ∈ kin p ∨ q = c ∧ p = d := by
      intro p here q inside
      by_cases same : p = d
      · rw [same, Function.update_self] at inside
        rcases List.mem_cons.mp inside with new | before
        · exact .inr ⟨new, same⟩
        · exact .inl (same ▸ before)
      · rw [Function.update_of_ne same] at inside
        exact .inl inside
    intro p here o there q inside also
    rcases old p here q inside with first | ⟨rfl, rfl⟩
    · rcases old o there q also with second | ⟨rfl, rfl⟩
      · exact linked.apart p here o there q first second
      · exact absurd first (absent p here)
    · rcases old o there q also with second | ⟨-, same⟩
      · exact absurd second (absent o there)
      · exact same.symm

/-! ## Parents and children -/

/-- The list of every process holds its children, the latest first. -/
structure Descent (table : ProcTable π) (kin : π → List π) (idle : π) : Prop where
  children : ∀ p, table.allocated p = true → ∀ q,
    q ∈ kin p ↔ table.allocated q = true ∧ (table.pcb (some q)).parent = some p
  recent : ∀ p, table.allocated p = true →
    (kin p).Pairwise fun a b => (table.pcb (some b)).since < (table.pcb (some a)).since
  past : ∀ p, table.allocated p = true → ∀ q ∈ kin p, (table.pcb (some q)).since < table.clock
  rooted : ∀ q, table.allocated q = true → q ≠ idle →
    ∃ p, (table.pcb (some q)).parent = some p ∧ table.allocated p = true ∧ p ≠ q
  named : table.idle = some idle
  root : table.allocated idle = true ∧ (table.pcb (some idle)).parent = none
  absent : ∀ p, table.allocated p = false → kin p = []

omit [DecidableEq π] in
theorem Descent.parent_live (descent : table.Descent kin idle) (live : table.allocated q = true)
    (parent : (table.pcb (some q)).parent = some p) : table.allocated p = true := by
  by_cases root : q = idle
  · rw [root, descent.root.2] at parent
    cases parent
  · obtain ⟨o, found, exists', -⟩ := descent.rooted q live root
    cases found.symm.trans parent
    exact exists'

omit [DecidableEq π] in
/-- A process that does not exist is nobody's parent, and its list is empty. -/
theorem Descent.mem_iff (descent : table.Descent kin idle) :
    q ∈ kin p ↔ table.allocated q = true ∧ (table.pcb (some q)).parent = some p := by
  cases here : table.allocated p with
  | true => exact descent.children p here q
  | false =>
      rw [descent.absent p here]
      constructor
      · intro inside
        cases inside
      · intro both
        rw [descent.parent_live both.1 both.2] at here
        cases here

omit [DecidableEq π] in
theorem Descent.live_of_mem (descent : table.Descent kin idle) (inside : q ∈ kin p) :
    table.allocated p = true :=
  descent.parent_live (descent.mem_iff.mp inside).1 (descent.mem_iff.mp inside).2

omit [DecidableEq π] in
theorem Descent.sorted (descent : table.Descent kin idle) (p : π) :
    (kin p).Pairwise fun a b => (table.pcb (some b)).since < (table.pcb (some a)).since := by
  cases here : table.allocated p with
  | true => exact descent.recent p here
  | false =>
      rw [descent.absent p here]
      exact .nil

omit [DecidableEq π] in
theorem Descent.nodup (descent : table.Descent kin idle) (p : π) : (kin p).Nodup := by
  refine (descent.sorted p).imp ?_
  rintro a b later rfl
  exact Nat.lt_irrefl _ later

theorem erase_absent (absent : ∀ p, c ∉ kin p) : (fun p => (kin p).erase c) = kin :=
  funext fun p => List.erase_of_not_mem (absent p)

/-- A process becomes the latest child of `d`, whoever its parent was before. -/
theorem Descent.reparent (descent : table.Descent kin idle) (live : table.allocated d = true)
    (other : d ≠ c) (notIdle : c ≠ idle)
    (allocated : ∀ q, after.allocated q = true ↔ q = c ∨ table.allocated q = true)
    (parent : ∀ q, table.allocated q = true → q ≠ c →
      (after.pcb (some q)).parent = (table.pcb (some q)).parent)
    (since : ∀ q, table.allocated q = true → q ≠ c →
      (after.pcb (some q)).since = (table.pcb (some q)).since)
    (newParent : (after.pcb (some c)).parent = some d)
    (newSince : (after.pcb (some c)).since = table.clock)
    (clock : after.clock = table.clock + 1) (named : after.idle = table.idle) :
    after.Descent (Function.update (fun p => (kin p).erase c) d (c :: (kin d).erase c)) idle := by
  have rest : ∀ p q, q ∈ (kin p).erase c ↔ q ≠ c ∧ q ∈ kin p :=
    fun p q => (descent.nodup p).mem_erase_iff
  have member : ∀ p q, q ∈ Function.update (fun p => (kin p).erase c) d (c :: (kin d).erase c) p ↔
      q = c ∧ p = d ∨ q ≠ c ∧ q ∈ kin p := by
    intro p q
    by_cases same : p = d
    · rw [same, Function.update_self, List.mem_cons, rest]
      simp
    · rw [Function.update_of_ne same, rest]
      simp [same]
  have since' : ∀ p q, q ∈ (kin p).erase c →
      (after.pcb (some q)).since = (table.pcb (some q)).since := by
    intro p q inside
    obtain ⟨different, old⟩ := (rest p q).mp inside
    exact since q (descent.mem_iff.mp old).1 different
  have recent : ∀ p, ((kin p).erase c).Pairwise fun a b =>
      (after.pcb (some b)).since < (after.pcb (some a)).since := by
    intro p
    refine ((descent.sorted p).sublist List.erase_sublist).imp_of_mem ?_
    intro a b first second later
    rw [since' p a first, since' p b second]
    exact later
  have past : ∀ p q, q ∈ (kin p).erase c → (after.pcb (some q)).since < table.clock := by
    intro p q inside
    rw [since' p q inside]
    have old := ((rest p q).mp inside).2
    exact descent.past p (descent.live_of_mem old) q old
  constructor
  · intro p here q
    rw [member, allocated]
    by_cases new : q = c
    · have turned : some d = some p ↔ p = d := by rw [Option.some_inj, eq_comm]
      simp [new, newParent, turned]
    · simp only [new, false_and, false_or, ne_eq, not_false_eq_true, true_and]
      rw [descent.mem_iff]
      constructor
      · intro both
        exact ⟨both.1, (parent q both.1 new).trans both.2⟩
      · intro both
        exact ⟨both.1, (parent q both.1 new).symm.trans both.2⟩
  · intro p here
    by_cases same : p = d
    · rw [same, Function.update_self, List.pairwise_cons]
      refine ⟨?_, recent d⟩
      intro q inside
      rw [newSince]
      exact past d q inside
    · rw [Function.update_of_ne same]
      exact recent p
  · intro p here q inside
    rw [clock]
    rcases (member p q).mp inside with ⟨rfl, -⟩ | ⟨new, old⟩
    · rw [newSince]
      exact Nat.lt_succ_self _
    · have := past p q ((rest p q).mpr ⟨new, old⟩)
      omega
  · intro q here root
    by_cases new : q = c
    · exact ⟨d, new ▸ newParent, (allocated d).mpr (.inr live), new ▸ other⟩
    · have before := ((allocated q).mp here).resolve_left new
      obtain ⟨p, found, exists', different⟩ := descent.rooted q before root
      exact ⟨p, (parent q before new).trans found, (allocated p).mpr (.inr exists'), different⟩
  · exact named.trans descent.named
  · refine ⟨(allocated idle).mpr (.inr descent.root.1), ?_⟩
    rw [parent idle descent.root.1 notIdle.symm, descent.root.2]
  · intro p gone
    have unknown : ¬ (p = c ∨ table.allocated p = true) := by
      rw [← allocated, gone]
      simp
    have different : p ≠ d := by
      rintro rfl
      exact unknown (.inr live)
    rw [Function.update_of_ne different,
      descent.absent p (by simpa using fun live => unknown (.inr live))]
    rfl

/-- A process without children ceases to exist. -/
theorem Descent.remove (descent : table.Descent kin idle) (childless : kin z = [])
    (notIdle : z ≠ idle)
    (allocated : ∀ q, after.allocated q = true ↔ q ≠ z ∧ table.allocated q = true)
    (parent : ∀ q, (after.pcb (some q)).parent = (table.pcb (some q)).parent)
    (since : ∀ q, (after.pcb (some q)).since = (table.pcb (some q)).since)
    (clock : after.clock = table.clock) (named : after.idle = table.idle) :
    after.Descent (fun p => (kin p).erase z) idle := by
  constructor
  · intro p here q
    obtain ⟨-, before⟩ := (allocated p).mp here
    rw [(descent.nodup p).mem_erase_iff, descent.mem_iff, allocated, parent, and_assoc]
  · intro p here
    simp only [since]
    exact (descent.recent p ((allocated p).mp here).2).sublist List.erase_sublist
  · intro p here q inside
    rw [since, clock]
    exact descent.past p ((allocated p).mp here).2 q (List.mem_of_mem_erase inside)
  · intro q here root
    obtain ⟨-, before⟩ := (allocated q).mp here
    obtain ⟨p, found, live, different⟩ := descent.rooted q before root
    refine ⟨p, (parent q).trans found, (allocated p).mpr ⟨?_, live⟩, different⟩
    rintro rfl
    have inside := (descent.children p live q).mpr ⟨before, found⟩
    simp [childless] at inside
  · exact named.trans descent.named
  · exact ⟨(allocated idle).mpr ⟨notIdle.symm, descent.root.1⟩, (parent idle).trans descent.root.2⟩
  · intro p gone
    by_cases same : p = z
    · simp [same, childless]
    · have unknown : table.allocated p = false := by
        cases before : table.allocated p with
        | false => rfl
        | true => rw [(allocated p).mpr ⟨same, before⟩] at gone; cases gone
      simp [descent.absent p unknown]

/-! ## The operations on the tree -/

/-- The tree is well formed, and `idle` and its child `init_proc` are alive. -/
structure Family (table : ProcTable π) (kin : π → List π) (idle init : π) : Prop where
  linked : table.Linked kin
  descent : table.Descent kin idle
  idleAwake : (table.pcb (some idle)).state ≠ .taskZombie
  named : table.initProc = some init
  live : table.allocated init = true
  parent : (table.pcb (some init)).parent = some idle
  awake : (table.pcb (some init)).state ≠ .taskZombie

def Childless (table : ProcTable π) (kin : π → List π) : Prop :=
  ∀ p, table.allocated p = true → (table.pcb (some p)).state = .taskZombie → kin p = []

theorem Linked.new {i j : Nat} (linked : table.Linked kin) (descent : table.Descent kin idle)
    (fresh : table.allocated pcb = false) (new : Numbered table pcb i j after) :
    after.Linked kin := by
  have known : ∀ p, after.allocated p = true → p = pcb ∨ table.allocated p = true := by
    intro p here
    rw [new.allocated] at here
    by_cases same : p = pcb
    · exact .inl same
    · exact .inr (by simpa [same] using here)
  have none : kin pcb = [] := descent.absent pcb fresh
  have record : ∀ q, table.allocated q = true → after.pcb (some q) = table.pcb (some q) := by
    intro q live
    apply new.others
    rintro ⟨⟩
    rw [fresh] at live
    cases live
  constructor
  · intro p here
    rcases known p here with rfl | old
    · rw [new.alone.1, none]
      rfl
    · rw [record p old, linked.first p old]
  · intro p here
    rcases known p here with rfl | old
    · rw [none]
      trivial
    · refine (linked.chain p old).congr ?_ ?_
      · intro q inside
        rw [record q ((descent.children p old q).mp inside).1]
      · intro q inside
        rw [record q ((descent.children p old q).mp inside).1]
  · intro p here
    rcases known p here with rfl | old
    · simp [none]
    · exact linked.nodup p old
  · intro p here o there q inside also
    rcases known p here with rfl | old
    · simp [none] at inside
    · rcases known o there with rfl | alsoOld
      · simp [none] at also
      · exact linked.apart p old o alsoOld q inside also

/-- A new process becomes the youngest child of its parent. -/
theorem Linked.enlist {numbered : ProcTable π} {i j : Nat} (linked : table.Linked kin)
    (descent : table.Descent kin idle) (fresh : table.allocated pcb = false)
    (new : Numbered table pcb i j numbered) (live : table.allocated d = true) :
    (numbered.enlist pcb (some d)).Linked (Function.update kin d (pcb :: kin d)) ∧
      (numbered.enlist pcb (some d)).Descent (Function.update kin d (pcb :: kin d)) idle := by
  have other : ∀ q, table.allocated q = true → q ≠ pcb := by
    rintro q known rfl
    rw [fresh] at known
    cases known
  have absent : ∀ p, pcb ∉ kin p := by
    intro p inside
    exact other pcb (descent.mem_iff.mp inside).1 rfl
  have record : ∀ q, table.allocated q = true → numbered.pcb (some q) = table.pcb (some q) := by
    intro q known
    apply new.others
    simpa using other q known
  have liveThen : numbered.allocated d = true := by
    rw [new.allocated, Function.update_of_ne (other d live)]
    exact live
  constructor
  · exact (linked.new descent fresh new).push liveThen (fun p _ => absent p) rfl
      (fun _ => enlist_cptr) (fun _ => enlist_optr) (fun _ => enlist_yptr) new.alone.2
  · have reparented : (numbered.enlist pcb (some d)).Descent
        (Function.update (fun p => (kin p).erase pcb) d (pcb :: (kin d).erase pcb)) idle := by
      refine descent.reparent live (other d live) (other idle descent.root.1).symm
        ?_ ?_ ?_ ?_ ?_ ?_ ?_
      · intro q
        have allocated : (numbered.enlist pcb (some d)).allocated =
            Function.update table.allocated pcb true := new.allocated
        rw [allocated]
        by_cases same : q = pcb <;> simp [same]
      · intro q known different
        rw [enlist_parent, if_neg different, record q known]
      · intro q known different
        rw [enlist_since, if_neg different, record q known]
      · rw [enlist_parent, if_pos rfl]
      · rw [enlist_since, if_pos rfl, new.clock]
      · rw [← new.clock]
        rfl
      · exact new.idle
    rwa [erase_absent absent, List.erase_of_not_mem (absent d)] at reparented

theorem Family.fork {numbered : ProcTable π} {i j : Nat} (family : table.Family kin idle init)
    (childless : table.Childless kin) (fresh : table.allocated pcb = false)
    (new : Numbered table pcb i j numbered) (live : table.allocated d = true)
    (awake : (table.pcb (some d)).state ≠ .taskZombie) :
    (numbered.enlist pcb (some d)).Family (Function.update kin d (pcb :: kin d)) idle init ∧
      (numbered.enlist pcb (some d)).Childless (Function.update kin d (pcb :: kin d)) := by
  obtain ⟨linked, descent⟩ := family.linked.enlist family.descent fresh new live
  have other : ∀ q, table.allocated q = true → q ≠ pcb := by
    rintro q known rfl
    rw [fresh] at known
    cases known
  have state : ∀ q, table.allocated q = true →
      ((numbered.enlist pcb (some d)).pcb (some q)).state = (table.pcb (some q)).state := by
    intro q known
    rw [enlist_state, if_neg (other q known), new.others _ (by simpa using other q known)]
  have allocated : (numbered.enlist pcb (some d)).allocated =
      Function.update table.allocated pcb true := new.allocated
  refine ⟨⟨linked, descent, ?_, ?_, ?_, ?_, ?_⟩, ?_⟩
  · rw [state idle family.descent.root.1]
    exact family.idleAwake
  · exact new.initProc.trans family.named
  · rw [allocated, Function.update_of_ne (other init family.live)]
    exact family.live
  · rw [enlist_parent, if_neg (other init family.live),
      new.others _ (by simpa using other init family.live)]
    exact family.parent
  · rw [state init family.live]
    exact family.awake
  · intro p here zombie
    rw [allocated] at here
    by_cases same : p = pcb
    · rw [same, enlist_state, if_pos rfl] at zombie
      cases zombie
    · rw [Function.update_of_ne same] at here
      rw [state p here] at zombie
      have notParent : p ≠ d := by
        rintro rfl
        exact awake zombie
      rw [Function.update_of_ne notParent]
      exact childless p here zombie

theorem handOver_pcb : ∃ state, (table.handOver (some d) (some c)).pcb (some q) =
      { ((table.detach (some d) (some c)).adopt (some c)).pcb (some q) with state } ∧
    (state = .taskZombie → (table.pcb (some q)).state = .taskZombie) := by
  obtain ⟨state, same, zombie⟩ := @wake_pcb _ _ ((table.detach (some d) (some c)).adopt (some c))
    ((table.detach (some d) (some c)).adopt (some c)).initProc q
    ((((table.detach (some d) (some c)).adopt (some c)).pcb (some c)).state = .taskZombie ∧
      (((table.detach (some d) (some c)).adopt (some c)).pcb
        ((table.detach (some d) (some c)).adopt (some c)).initProc).waitstate = .wtChild) _
  refine ⟨state, same, ?_⟩
  rw [adopt_state, detach_state] at zombie
  exact zombie

theorem handOver_allocated : (table.handOver (some d) (some c)).allocated = table.allocated := by
  simp only [handOver]
  split <;> simp [wakeupProcess, adopt, detach, setParent]

theorem handOver_idle : (table.handOver (some d) (some c)).idle = table.idle := by
  simp only [handOver]
  split <;> simp [wakeupProcess, adopt, detach, setParent]

theorem handOver_initProc : (table.handOver (some d) (some c)).initProc = table.initProc := by
  simp only [handOver]
  split <;> simp [wakeupProcess, adopt, detach, setParent]

theorem handOver_clock : (table.handOver (some d) (some c)).clock = table.clock + 1 := by
  simp only [handOver]
  split <;> simp [wakeupProcess, adopt, detach, setParent]

/-- The youngest child of `d` becomes the youngest child of `init_proc`. -/
theorem Family.handOver {rest : List π} (family : table.Family kin idle init)
    (live : table.allocated d = true) (notIdle : d ≠ idle) (notInit : d ≠ init)
    (youngest : kin d = c :: rest) :
    (table.handOver (some d) (some c)).Family
      (Function.update (fun p => (kin p).erase c) init (c :: (kin init).erase c)) idle init := by
  have member : c ∈ kin d := by simp [youngest]
  obtain ⟨known, parent⟩ := (family.descent.children d live c).mp member
  have childNotInit : c ≠ init := by
    rintro rfl
    exact notIdle (Option.some.inj (parent.symm.trans family.parent))
  have childNotIdle : c ≠ idle := by
    rintro rfl
    rw [family.descent.root.2] at parent
    cases parent
  have noYounger : (table.pcb (some c)).yptr = none := by
    have chain := family.linked.chain d live
    rw [youngest] at chain
    exact chain.1
  have named : (table.detach (some d) (some c)).initProc = some init := by
    simpa [detach] using family.named
  have detached : (table.detach (some d) (some c)).Linked fun p => (kin p).erase c := by
    refine family.linked.remove live member ?_ ?_ ?_ ?_
    · simp [detach]
    · intro p
      simp [detach_cptr, noYounger]
    · intro q other
      simp [detach_optr, noYounger]
    · intro q other
      simp [detach_yptr, noYounger, other]
  have record : ∀ q, ∃ state, (table.handOver (some d) (some c)).pcb (some q) =
      { ((table.detach (some d) (some c)).adopt (some c)).pcb (some q) with state } := by
    intro q
    obtain ⟨state, same, -⟩ := @handOver_pcb _ _ table q d c
    exact ⟨state, same⟩
  have state : ∀ q, (table.pcb (some q)).state ≠ .taskZombie →
      ((table.handOver (some d) (some c)).pcb (some q)).state ≠ .taskZombie := by
    intro q awake
    obtain ⟨state, same, zombie⟩ := @handOver_pcb _ _ table q d c
    rw [same]
    exact fun dead => awake (zombie dead)
  have parents : ∀ q, ((table.handOver (some d) (some c)).pcb (some q)).parent =
      if q = c then some init else (table.pcb (some q)).parent := by
    intro q
    obtain ⟨state, same⟩ := record q
    rw [same]
    exact (adopt_parent named).trans (by rw [detach_parent])
  refine ⟨?_, ?_, state idle family.idleAwake, ?_, ?_, ?_, state init family.awake⟩
  · refine detached.push (by simpa [detach] using family.live) ?_ ?_ ?_ ?_ ?_ ?_
    · intro p here inside
      have before : table.allocated p = true := by simpa [detach] using here
      exact absurd rfl ((family.linked.nodup p before).mem_erase_iff.mp inside).1
    · rw [handOver_allocated]
      simp [detach]
    · intro p
      obtain ⟨state, same⟩ := record p
      rw [same]
      exact adopt_cptr named
    · intro q
      obtain ⟨state, same⟩ := record q
      rw [same]
      exact adopt_optr named
    · intro q
      obtain ⟨state, same⟩ := record q
      rw [same]
      exact adopt_yptr named
    · simp [detach_yptr]
  · refine family.descent.reparent family.live childNotInit.symm childNotIdle ?_ ?_ ?_ ?_ ?_
      handOver_clock handOver_idle
    · intro q
      rw [handOver_allocated]
      constructor
      · exact .inr
      · rintro (rfl | known)
        · exact known
        · exact known
    · intro q _ other
      rw [parents, if_neg other]
    · intro q _ other
      obtain ⟨state, same⟩ := record q
      rw [same]
      exact adopt_since.trans (by rw [if_neg other, detach_since])
    · rw [parents, if_pos rfl]
    · obtain ⟨state, same⟩ := record c
      rw [same]
      exact adopt_since.trans (by rw [if_pos rfl]; simp [detach])
  · rw [handOver_initProc, family.named]
  · rw [handOver_allocated, family.live]
  · rw [parents, if_neg childNotInit.symm]
    exact family.parent

omit [DecidableEq π] in
/-- Only states change, and PCBs that belong to nobody. -/
theorem Family.restate (family : table.Family kin idle init)
    (record : ∀ q, table.allocated q = true →
      ∃ state, after.pcb (some q) = { table.pcb (some q) with state })
    (allocated : after.allocated = table.allocated) (named : after.idle = table.idle)
    (initProc : after.initProc = table.initProc) (clock : after.clock = table.clock)
    (idleAwake : (after.pcb (some idle)).state ≠ .taskZombie)
    (awake : (after.pcb (some init)).state ≠ .taskZombie) : after.Family kin idle init := by
  obtain ⟨linked, descent, -, nameInit, live, parentInit, -⟩ := family
  have known : ∀ p, table.allocated p = true → ∀ q ∈ kin p, table.allocated q = true :=
    fun p here q inside => ((descent.children p here q).mp inside).1
  have parent : ∀ q, table.allocated q = true →
      (after.pcb (some q)).parent = (table.pcb (some q)).parent := by
    intro q here
    obtain ⟨state, same⟩ := record q here
    rw [same]
  have since : ∀ q, table.allocated q = true →
      (after.pcb (some q)).since = (table.pcb (some q)).since := by
    intro q here
    obtain ⟨state, same⟩ := record q here
    rw [same]
  refine ⟨⟨?_, ?_, ?_, ?_⟩, ⟨?_, ?_, ?_, ?_, ?_, ?_, ?_⟩, idleAwake, ?_, ?_, ?_, awake⟩
  all_goals try simp only [allocated, clock, named, initProc]
  · intro p here
    obtain ⟨state, same⟩ := record p here
    rw [same]
    exact linked.first p here
  · intro p here
    refine (linked.chain p here).congr ?_ ?_
    · intro q inside
      obtain ⟨state, same⟩ := record q (known p here q inside)
      rw [same]
    · intro q inside
      obtain ⟨state, same⟩ := record q (known p here q inside)
      rw [same]
  · exact linked.nodup
  · exact linked.apart
  · intro p here q
    rw [descent.children p here q]
    exact and_congr_right fun there => by rw [parent q there]
  · intro p here
    refine (descent.recent p here).imp_of_mem ?_
    intro a b first second later
    rw [since a (known p here a first), since b (known p here b second)]
    exact later
  · intro p here q inside
    rw [since q (known p here q inside)]
    exact descent.past p here q inside
  · intro q here root
    rw [parent q here]
    exact descent.rooted q here root
  · exact descent.named
  · rw [parent idle descent.root.1]
    exact descent.root
  · exact descent.absent
  · exact nameInit
  · exact live
  · rw [parent init live]
    exact parentInit

section Dying

variable {choice : Prop} [Decidable choice]

/-- `do_exit` before the loop: a new zombie, and its parent may be woken. -/
theorem dying_pcb : ∃ state,
    (if choice then (table.edit (some d) fun pcb => { pcb with state := .taskZombie }).wakeupProcess
      ptr else table.edit (some d) fun pcb => { pcb with state := .taskZombie }).pcb (some q) =
    { table.pcb (some q) with state } := by
  obtain ⟨state, same, -⟩ := @wake_pcb _ _
    (table.edit (some d) fun pcb => { pcb with state := .taskZombie }) ptr q choice _
  refine ⟨state, ?_⟩
  rw [same, edit_pcb]
  split <;> rfl

theorem dying_zombie (other : q ≠ d)
    (dead : ((if choice then
        (table.edit (some d) fun pcb => { pcb with state := .taskZombie }).wakeupProcess ptr
      else table.edit (some d) fun pcb => { pcb with state := .taskZombie }).pcb (some q)).state =
        .taskZombie) :
    (table.pcb (some q)).state = .taskZombie := by
  obtain ⟨state, same, zombie⟩ := @wake_pcb _ _
    (table.edit (some d) fun pcb => { pcb with state := .taskZombie }) ptr q choice _
  rw [same] at dead
  simpa [edit_state, other] using zombie dead

end Dying

/-- All children of an exiting process go to `init_proc`. -/
theorem Family.exit {fuel : Nat} (family : table.Family kin idle init)
    (childless : table.Childless kin) (live : table.allocated d = true) (notIdle : d ≠ idle)
    (notInit : d ≠ init) (exited : table.doExit fuel (some d) = some after) :
    ∃ kin', after.Family kin' idle init ∧ after.Childless kin' := by
  refine @loop_invariant _ _ _ _ _ _
    (fun state => ∃ kin', state.Family kin' idle init ∧ state.allocated = table.allocated ∧
      (∀ p, p ≠ d → p ≠ init → kin' p = kin p) ∧
      ∀ q, q ≠ d → (state.pcb (some q)).state = .taskZombie →
        (table.pcb (some q)).state = .taskZombie)
    (fun state => ∃ kin', state.Family kin' idle init ∧ state.Childless kin') ?_ ?_ exited ?_
  · rintro state next ⟨kin', family', allocated, kept, zombies⟩ round
    have here : state.allocated d = true := allocated ▸ live
    split at round
    · cases round
      rename_i child
      rw [family'.linked.first d here] at child ⊢
      cases youngest : kin' d with
      | nil => simp [youngest] at child
      | cons c rest =>
          refine ⟨_, family'.handOver here notIdle notInit youngest, ?_, ?_, ?_⟩
          · exact handOver_allocated.trans allocated
          · intro p notParent notInit'
            rw [Function.update_of_ne notInit', ← kept p notParent notInit']
            apply List.erase_of_not_mem
            intro inside
            exact notParent (family'.linked.apart p (family'.descent.live_of_mem inside) d here c
              inside (by simp [youngest]))
          · intro q other zombie
            obtain ⟨after, same, before⟩ := @handOver_pcb _ _ state q d c
            apply zombies q other
            apply before
            simpa [same] using zombie
    · cases round
  · rintro state result ⟨kin', family', allocated, kept, zombies⟩ round
    split at round
    · cases round
    · cases round
      rename_i childless'
      rw [family'.linked.first d (allocated ▸ live)] at childless'
      have none : kin' d = [] := by simpa using childless'
      refine ⟨kin', family', ?_⟩
      intro p here zombie
      by_cases same : p = d
      · rw [same, none]
      · have notInit' : p ≠ init := by
          rintro rfl
          exact family'.awake zombie
        rw [kept p same notInit']
        exact childless p (allocated ▸ here) (zombies p same zombie)
  · refine ⟨kin, ?_, ?_, fun _ _ _ => rfl, fun q other => dying_zombie other⟩
    · refine family.restate (fun q _ => dying_pcb) ?_ ?_ ?_ ?_ ?_ ?_
      · split <;> rfl
      · split <;> rfl
      · split <;> rfl
      · split <;> rfl
      · exact fun dead => family.idleAwake (dying_zombie notIdle.symm dead)
      · exact fun dead => family.awake (dying_zombie notInit.symm dead)
    · split <;> rfl

omit [DecidableEq π] in
theorem Linked.yptr_ne (linked : table.Linked kin) (live : table.allocated d = true)
    (member : z ∈ kin d) : (table.pcb (some z)).yptr ≠ some z := by
  obtain ⟨xs, ys, split⟩ := List.append_of_mem member
  have chain := linked.chain d live
  have nodup := linked.nodup d live
  rw [split] at chain nodup
  rw [chain.links.2, Option.or_none]
  intro last
  exact (List.nodup_append.mp nodup).2.2 z (List.mem_of_getLast? last) z (by simp) rfl

/-- A zombie, which has no children, leaves its siblings. -/
theorem Family.recycle (family : table.Family kin idle init) (childless : table.Childless kin)
    (live : table.allocated z = true) (zombie : (table.pcb (some z)).state = .taskZombie) :
    (table.recycleChild z).Family (fun p => (kin p).erase z) idle init ∧
      (table.recycleChild z).Childless fun p => (kin p).erase z := by
  have notIdle : z ≠ idle := by
    rintro rfl
    exact family.idleAwake zombie
  have notInit : z ≠ init := by
    rintro rfl
    exact family.awake zombie
  obtain ⟨d, parent, liveParent, -⟩ := family.descent.rooted z live notIdle
  have member : z ∈ kin d := (family.descent.children d liveParent z).mpr ⟨live, parent⟩
  have allocated : (table.recycleChild z).allocated = Function.update table.allocated z false := by
    simp only [recycleChild, free, freeStack, removeLinks]
    split <;> simp
  have known : ∀ q, (table.recycleChild z).allocated q = true ↔
      q ≠ z ∧ table.allocated q = true := by
    intro q
    rw [allocated]
    by_cases same : q = z <;> simp [same]
  refine ⟨⟨?_, ?_, ?_, ?_, ?_, ?_, ?_⟩, ?_⟩
  · refine family.linked.remove liveParent member (fun p here => ((known p).mp here).2) ?_ ?_ ?_
    · intro p
      refine removeLinks_cptr.trans ?_
      simp [parent, eq_comm]
    · intro q _
      exact removeLinks_optr
    · intro q _
      exact removeLinks_yptr (family.linked.yptr_ne liveParent member)
  · refine family.descent.remove (childless z live zombie) notIdle known
      (fun q => removeLinks_parent) (fun q => removeLinks_since) ?_ ?_
    · simp only [recycleChild, free, freeStack, removeLinks]
      split <;> simp
    · simp only [recycleChild, free, freeStack, removeLinks]
      split <;> simp
  · exact fun dead => family.idleAwake (removeLinks_state.symm.trans dead)
  · refine Eq.trans ?_ family.named
    simp only [recycleChild, free, freeStack, removeLinks]
    split <;> simp
  · exact (known init).mpr ⟨notInit.symm, family.live⟩
  · exact removeLinks_parent.trans family.parent
  · exact fun dead => family.awake (removeLinks_state.symm.trans dead)
  · intro p here dead
    have none : kin p = [] := childless p ((known p).mp here).2 (removeLinks_state.symm.trans dead)
    simp [none]

end ProcTable

/-! ## Runs -/

/-- What happens to the tree: `chunk` and `stack` are the answers of `malloc` and
`alloc_page`, and `fuel` bounds the rounds of a loop. -/
inductive FamilyOp (π : Type u) where
  | fork (p : π) (chunk : Option π) (stack : Option Nat)
  | exit (p : π) (fuel : Nat)
  | recycle (child : π)

namespace ProcTable

variable {π : Type u} [DecidableEq π] {table after : ProcTable π} {kin : π → List π}
  {idle init pcb : π}

def Alive (table : ProcTable π) (p : π) : Prop :=
  table.allocated p = true ∧ (table.pcb (some p)).state ≠ .taskZombie

instance (p : π) : Decidable (table.Alive p) := inferInstanceAs (Decidable (_ ∧ _))

def familyStep (table : ProcTable π) : FamilyOp π → Option (ProcTable π)
  | .fork p chunk stack =>
      if table.Alive p ∧ chunk.all (fun pcb => !table.allocated pcb) then
        some (table.doFork (some p) chunk stack).2
      else none
  | .exit p fuel =>
      if table.Alive p ∧ table.idle ≠ some p ∧ table.initProc ≠ some p then
        table.doExit fuel (some p)
      else none
  | .recycle child =>
      if table.allocated child ∧ (table.pcb (some child)).state = .taskZombie then
        some (table.recycleChild child)
      else none

/-- After `proc_init` a first child of `idle` is made `init_proc`. -/
def familyMachine (π : Type u) [DecidableEq π] : Machine (ProcTable π) (FamilyOp π) where
  start table := ∃ (unbooted : ProcTable π) (idle init : π) (kernStack stack : Nat),
    unbooted.Unbooted ∧ init ≠ idle ∧
      ((unbooted.procInit idle kernStack).doFork (some idle) (some init) (some stack)).1 ≠ -1 ∧
      table = { ((unbooted.procInit idle kernStack).doFork (some idle) (some init)
        (some stack)).2 with initProc := some init }
  step := familyStep

theorem procInit_idle {kernStack : Nat} :
    ((table.procInit idle kernStack).pcb (some idle)).cptr = none ∧
      ((table.procInit idle kernStack).pcb (some idle)).parent = none ∧
      ((table.procInit idle kernStack).pcb (some idle)).state = .taskReady := by
  have first : clearBit (fun _ => 0#32) = some (0, 0) := by decide +kernel
  simp [procInit, getPid, createPcb, edit, first]

theorem procInit_family {kernStack : Nat} (unbooted : table.Unbooted) :
    (table.procInit idle kernStack).Linked (fun _ => []) ∧
      (table.procInit idle kernStack).Descent (fun _ => []) idle := by
  have accounted := @Accounted.booted _ _ table idle kernStack unbooted
  have only : ∀ p, (table.procInit idle kernStack).allocated p = true → p = idle := by
    intro p live
    simpa using (accounted.allocated p).mp live
  obtain ⟨cptr, parent, -⟩ := @procInit_idle _ _ table idle kernStack
  constructor
  · constructor
    · intro p live
      rw [only p live, cptr]
      rfl
    · exact fun _ _ => trivial
    · exact fun _ _ => List.nodup_nil
    · simp
  · constructor
    · intro p live q
      constructor
      · simp
      · rintro ⟨known, child⟩
        rw [only q known, parent] at child
        cases child
    · exact fun _ _ => List.Pairwise.nil
    · simp
    · exact fun q known root => absurd (only q known) root
    · exact accounted.named
    · exact ⟨(accounted.allocated idle).mpr (by simp), parent⟩
    · simp

theorem family_start (started : (familyMachine π).start table) :
    ∃ kin idle init, table.Family kin idle init ∧ table.Childless kin := by
  obtain ⟨unbooted, idle, init, kernStack, stack, blank, different, created, rfl⟩ := started
  obtain ⟨linked, descent⟩ := @procInit_family _ _ unbooted idle kernStack blank
  have accounted := @Accounted.booted _ _ unbooted idle kernStack blank
  have fresh : (unbooted.procInit idle kernStack).allocated init = false := by
    cases live : (unbooted.procInit idle kernStack).allocated init with
    | false => rfl
    | true => exact absurd ((accounted.allocated init).mp live) (by simpa using different)
  rcases @doFork_cases _ _ (unbooted.procInit idle kernStack) (some idle) (some init) (some stack)
    (by rintro pcb ⟨⟩; exact fresh) with ⟨failed, -⟩ | ⟨pcb, i, j, numbered, given, new, forked, -⟩
  · exact absurd failed created
  · cases given
    obtain ⟨linked, descent⟩ := linked.enlist descent fresh new descent.root.1
    obtain ⟨-, -, ready⟩ := @procInit_idle _ _ unbooted idle kernStack
    have idleState : ((numbered.enlist init (some idle)).pcb (some idle)).state = .taskReady := by
      rw [enlist_state, if_neg different.symm, new.others _ (by simpa using different.symm), ready]
    have initState : ((numbered.enlist init (some idle)).pcb (some init)).state =
        .taskRunnable := by
      rw [enlist_state, if_pos rfl]
    have allocated : (numbered.enlist init (some idle)).allocated = Function.update
        (unbooted.procInit idle kernStack).allocated init true := new.allocated
    rw [forked]
    refine ⟨Function.update (fun _ => []) idle [init], idle, init,
      ⟨?_, ?_, ?_, rfl, ?_, ?_, ?_⟩, ?_⟩
    · exact ⟨linked.first, linked.chain, linked.nodup, linked.apart⟩
    · exact ⟨descent.children, descent.recent, descent.past, descent.rooted, descent.named,
        descent.root, descent.absent⟩
    · exact fun dead => by cases idleState.symm.trans dead
    · exact (congrFun allocated init).trans (Function.update_self _ _ _)
    · exact enlist_parent.trans (if_pos rfl)
    · exact fun dead => by cases initState.symm.trans dead
    · intro p live dead
      have known : p = init ∨ p = idle := by
        by_cases same : p = init
        · exact .inl same
        · have old : (unbooted.procInit idle kernStack).allocated p = true := by
            simpa [allocated, same] using live
          exact .inr (by simpa using (accounted.allocated p).mp old)
      rcases known with rfl | rfl
      · cases initState.symm.trans dead
      · cases idleState.symm.trans dead

theorem family_step {op : FamilyOp π} (family : table.Family kin idle init)
    (childless : table.Childless kin) (moved : table.familyStep op = some after) :
    ∃ kin', after.Family kin' idle init ∧ after.Childless kin' := by
  cases op with
  | fork p chunk stack =>
      simp only [familyStep] at moved
      split at moved
      · rename_i enabled
        cases moved
        have fresh : ∀ pcb, chunk = some pcb → table.allocated pcb = false := by
          rintro pcb rfl
          simpa using enabled.2
        rcases @doFork_cases _ _ table (some p) chunk stack fresh with
          ⟨-, untouched⟩ | ⟨pcb, i, j, numbered, given, new, forked, -⟩
        · have same : ∀ q, table.allocated q = true →
              (table.doFork (some p) chunk stack).2.pcb (some q) = table.pcb (some q) := by
            intro q live
            apply untouched.pcb
            intro taken
            rw [fresh q taken] at live
            cases live
          refine ⟨kin, family.restate (fun q live => ⟨_, same q live⟩) untouched.allocated
            untouched.idle untouched.initProc untouched.clock ?_ ?_, ?_⟩
          · rw [same idle family.descent.root.1]
            exact family.idleAwake
          · rw [same init family.live]
            exact family.awake
          · intro q live dead
            rw [untouched.allocated] at live
            rw [same q live] at dead
            exact childless q live dead
        · rw [forked]
          exact ⟨_, family.fork childless (fresh pcb given) new enabled.1.1 enabled.1.2⟩
      · cases moved
  | exit p fuel =>
      simp only [familyStep] at moved
      split at moved
      · rename_i enabled
        obtain ⟨⟨live, -⟩, notIdle, notInit⟩ := enabled
        refine family.exit childless live ?_ ?_ moved
        · rintro rfl
          exact notIdle family.descent.named
        · rintro rfl
          exact notInit family.named
      · cases moved
  | recycle child =>
      simp only [familyStep] at moved
      split at moved
      · rename_i enabled
        cases moved
        exact ⟨_, family.recycle childless enabled.1 enabled.2⟩
      · cases moved

theorem family_of_reachable (reached : (familyMachine π).Reachable table) :
    ∃ kin idle init, table.Family kin idle init ∧ table.Childless kin := by
  refine reached.invariant (fun _ => family_start) ?_
  rintro before op after ⟨kin, idle, init, family, childless⟩ moved
  obtain ⟨kin', next⟩ := family_step family childless moved
  exact ⟨kin', idle, init, next⟩

/-- The chain from `cptr` along `optr` lists the children of a process, each once
and the one that became its child last first, and `yptr` leads back. -/
theorem chain_lists_children (reached : (familyMachine π).Reachable table) {p : π}
    (live : table.allocated p = true) :
    ∃ children : List π, (table.pcb (some p)).cptr = children.head? ∧
      Chained (fun q => (table.pcb (some q)).optr) (fun q => (table.pcb (some q)).yptr)
        none children ∧
      (∀ q, q ∈ children ↔
        table.allocated q = true ∧ (table.pcb (some q)).parent = some p) ∧
      children.Nodup ∧
      children.Pairwise fun a b => (table.pcb (some b)).since < (table.pcb (some a)).since := by
  obtain ⟨kin, idle, init, family, -⟩ := family_of_reachable reached
  exact ⟨kin p, family.linked.first p live, family.linked.chain p live,
    family.descent.children p live, family.linked.nodup p live, family.descent.recent p live⟩

/-- `idle` is 0 and has the child 1, which is `init_proc`. -/
def firstFamily : ProcTable Nat :=
  { ((blank.procInit 0 0).doFork (some 0) (some 1) (some 0)).2 with initProc := some 1 }

theorem firstFamily_start : (familyMachine Nat).start firstFamily :=
  ⟨blank, 0, 1, 0, 0, ⟨fun _ => rfl, rfl, rfl⟩, by decide, by decide +kernel, rfl⟩

/-- Process 2 exits and leaves its children 3 and 4 to `init_proc`, 4 before 3. -/
theorem chain_lists_children_adopted :
    ∃ (table : ProcTable Nat) (children : List Nat),
      (familyMachine Nat).run firstFamily [.fork 1 (some 2) (some 0), .fork 2 (some 3) (some 0),
        .fork 2 (some 4) (some 0), .exit 2 3] = some table ∧
      children.head? = some 3 ∧ 4 ∈ children ∧
      children.Pairwise fun a b => (table.pcb (some b)).since < (table.pcb (some a)).since := by
  have runs : ((familyMachine Nat).run firstFamily [.fork 1 (some 2) (some 0),
      .fork 2 (some 3) (some 0), .fork 2 (some 4) (some 0), .exit 2 3]).any (fun table =>
        decide (table.allocated 1 = true ∧ (table.pcb (some 1)).cptr = some 3 ∧
          table.allocated 4 = true ∧ (table.pcb (some 4)).parent = some 1)) = true := by
    decide +kernel
  cases ran : (familyMachine Nat).run firstFamily [.fork 1 (some 2) (some 0),
      .fork 2 (some 3) (some 0), .fork 2 (some 4) (some 0), .exit 2 3] with
  | none => simp [ran] at runs
  | some table =>
      obtain ⟨live, youngest, known, parent⟩ : table.allocated 1 = true ∧
          (table.pcb (some 1)).cptr = some 3 ∧ table.allocated 4 = true ∧
          (table.pcb (some 4)).parent = some 1 := by
        simpa only [ran, Option.any_some, decide_eq_true_eq] using runs
      obtain ⟨children, first, -, members, -, recent⟩ :=
        chain_lists_children (.run (.start firstFamily_start) ran) live
      exact ⟨table, children, rfl, first.symm.trans youngest, (members 4).mpr ⟨known, parent⟩,
        recent⟩

end ProcTable

end WindOs.Proc
