import WindOs.Proc.Table

namespace WindOs.Proc

open Data Sync Sched

universe u

/-! # Waiting for a child

While a call of `do_waitpid` sleeps in `schedule()`, the other processes may do
anything: `tables 0` is the process table that the call finds, and `tables k` the
one that it finds when its `k`-th call of `schedule()` returns.
-/

/-- How a call of `do_waitpid` ended: after how many calls of `schedule()`, with
which code, and which PCB it gave to `recycle_child`. -/
structure Waited (π : Type u) where
  rounds : Nat
  code : Int
  reaped : Option π
  table : ProcTable π

namespace ProcTable

variable {π : Type u} [DecidableEq π]

def follow (fuel : Nat) (tables : Nat → ProcTable π) (current : Option π) :
    Nat → Nat → Segment π → Option (Waited π)
  | _, rounds, .returned code reaped table => some { rounds, code, reaped, table }
  | 0, _, .scheduling _ => none
  | turns + 1, rounds, .scheduling point =>
      ((tables (rounds + 1)).resumeWait fuel current point).bind
        (follow fuel tables current turns (rounds + 1))

/-- `none` says that the call did not return within `fuel` rounds of its loops. -/
def doWaitpid (fuel : Nat) (tables : Nat → ProcTable π) (current : Option π) (pid : Int) :
    Option (Waited π) :=
  ((tables 0).beginWait fuel current pid).bind (follow fuel tables current fuel 0)

variable {table : ProcTable π} {tables : Nat → ProcTable π} {list : List π}
  {lists : Nat → List π} {current : Option π} {pid : Int} {fuel k : Nat} {chd : π}

def IsZombieChild (table : ProcTable π) (current : Option π) (p : π) : Prop :=
  (table.pcb (some p)).parent = current ∧ (table.pcb (some p)).state = .taskZombie

instance : DecidablePred (table.IsZombieChild current) := fun _ => inferInstanceAs (Decidable (_ ∧ _))

/-- What the search for any zombie finds on a list. -/
def searchAny (table : ProcTable π) (list : List π) (current : Option π)
    (found : Bool × Option π) : Segment π :=
  match list.find? (fun p => table.IsZombieChild current p) with
  | some p => table.reap p
  | none => table.finishAny
      (found.1 || list.any (fun p => (table.pcb (some p)).parent = current),
        list.getLast?.or found.2)

/-- What the search for a pid finds on a list. -/
def searchOne (table : ProcTable π) (list : List π) (current : Option π) (pid : Int) : Segment π :=
  match list.find? (fun p => (table.pcb (some p)).pid = pid) with
  | some p =>
      if (table.pcb (some p)).parent = current then table.waitFor p
      else .returned (-1) none table
  | none => .returned 0 none table

theorem scan_visitAny (found : Bool × Option π) :
    scan (table.visitAny current) table.finishAny (list.map .node) found =
      table.searchAny list current found := by
  induction list generalizing found with
  | nil => simp [scan, searchAny]
  | cons chd rest ih =>
      obtain ⟨hasChild, last⟩ := found
      have lastOr : (chd :: rest).getLast?.or last = rest.getLast?.or (some chd) := by
        rw [List.getLast?_cons]
        cases rest.getLast? <;> rfl
      by_cases own : (table.pcb (some chd)).parent = current
      · by_cases zombie : (table.pcb (some chd)).state = .taskZombie
        · have child : table.IsZombieChild current chd := ⟨own, zombie⟩
          simp [scan, visitAny, own, zombie, searchAny, child]
        · have child : ¬ table.IsZombieChild current chd := fun child => zombie child.2
          simp only [List.map_cons, scan, visitAny, if_pos own, if_neg zombie]
          rw [ih, searchAny, searchAny, List.find?_cons_of_neg (by simpa using child), lastOr]
          simp [own]
      · have child : ¬ table.IsZombieChild current chd := fun child => own child.1
        simp only [List.map_cons, scan, visitAny, if_neg own]
        rw [ih, searchAny, searchAny, List.find?_cons_of_neg (by simpa using child), lastOr]
        simp [own]

theorem scan_visitOne :
    scan (table.visitOne current pid) (fun _ => .returned 0 none table) (list.map .node) () =
      table.searchOne list current pid := by
  induction list with
  | nil => simp [scan, searchOne]
  | cons chd rest ih =>
      by_cases same : (table.pcb (some chd)).pid = pid
      · by_cases own : (table.pcb (some chd)).parent = current <;>
          simp [scan, visitOne, same, own, searchOne]
      · simp only [List.map_cons, scan, visitOne, if_neg same]
        rw [ih, searchOne, searchOne, List.find?_cons_of_neg (by simpa using same)]

def searchBegin (table : ProcTable π) (list : List π) (current : Option π) (pid : Int) :
    Segment π :=
  if pid = 0 then table.searchAny list current (false, none)
  else table.searchOne list current pid

def searchResume (table : ProcTable π) (list : List π) (current : Option π) :
    WaitPoint π → Segment π
  | .any chd =>
      if (table.pcb (some chd)).state = .taskZombie then table.reap chd
      else table.searchAny list current (true, some chd)
  | .one chd => table.waitFor chd

theorem beginWait_eq (ring : table.procs.IsRing .procList (list.map .node))
    (enough : list.length < fuel) :
    table.beginWait fuel current pid = some (table.searchBegin list current pid) := by
  have short : (list.map ProcNode.node).length < fuel := by simpa using enough
  by_cases any : pid = 0
  · simp only [beginWait, searchBegin, if_pos any, waitAny]
    rw [loop_walk_ring ring _ short, scan_visitAny]
  · simp only [beginWait, searchBegin, if_neg any, waitOne]
    rw [loop_walk_ring ring _ short, scan_visitOne]

theorem resumeWait_eq (ring : table.procs.IsRing .procList (list.map .node))
    (enough : list.length < fuel) (point : WaitPoint π) :
    table.resumeWait fuel current point = some (table.searchResume list current point) := by
  have short : (list.map ProcNode.node).length < fuel := by simpa using enough
  cases point with
  | any chd =>
      by_cases zombie : (table.pcb (some chd)).state = .taskZombie
      · simp only [resumeWait, searchResume, if_pos zombie]
      · simp only [resumeWait, searchResume, if_neg zombie, waitAny]
        rw [loop_walk_ring ring _ short, scan_visitAny]
  | one chd => rfl

/-- A segment that ends has found what the search over the list finds. -/
theorem beginWait_some {segment : Segment π}
    (ring : table.procs.IsRing .procList (list.map .node))
    (ended : table.beginWait fuel current pid = some segment) :
    segment = table.searchBegin list current pid := by
  by_cases any : pid = 0
  · simp only [beginWait, searchBegin, if_pos any, waitAny] at ended ⊢
    rw [← scan_visitAny]
    exact loop_unique ended (loop_walk_ring ring _ (Nat.lt_succ_self _))
  · simp only [beginWait, searchBegin, if_neg any, waitOne] at ended ⊢
    rw [← scan_visitOne]
    exact loop_unique ended (loop_walk_ring ring _ (Nat.lt_succ_self _))

theorem resumeWait_some {segment : Segment π} {point : WaitPoint π}
    (ring : table.procs.IsRing .procList (list.map .node))
    (ended : table.resumeWait fuel current point = some segment) :
    segment = table.searchResume list current point := by
  cases point with
  | any chd =>
      by_cases zombie : (table.pcb (some chd)).state = .taskZombie
      · simp only [resumeWait, searchResume, if_pos zombie] at ended ⊢
        exact (Option.some.inj ended).symm
      · simp only [resumeWait, searchResume, if_neg zombie, waitAny] at ended ⊢
        rw [← scan_visitAny]
        exact loop_unique ended (loop_walk_ring ring _ (Nat.lt_succ_self _))
  | one chd => exact (Option.some.inj ended).symm

/-- The segments of a call, numbered by the calls of `schedule()` before them. -/
def segment (tables : Nat → ProcTable π) (lists : Nat → List π) (current : Option π) (pid : Int) :
    Nat → Option (Segment π)
  | 0 => some ((tables 0).searchBegin (lists 0) current pid)
  | k + 1 =>
      match segment tables lists current pid k with
      | some (.scheduling point) =>
          some ((tables (k + 1)).searchResume (lists (k + 1)) current point)
      | _ => none

def Rings (tables : Nat → ProcTable π) (lists : Nat → List π) : Prop :=
  ∀ k, (tables k).procs.IsRing .procList ((lists k).map .node)

theorem segment_over {code : Int} {reaped : Option π}
    (returned : segment tables lists current pid k = some (.returned code reaped table)) (n : Nat) :
    segment tables lists current pid (k + (n + 1)) = none := by
  induction n with
  | zero => simp only [segment, returned]
  | succ n ih => rw [← Nat.add_assoc, segment, ih]

theorem segment_follow {turns : Nat} {part : Segment π} {waited : Waited π}
    (rings : Rings tables lists) (reached : segment tables lists current pid k = some part)
    (ended : follow fuel tables current turns k part = some waited) :
    segment tables lists current pid waited.rounds =
      some (.returned waited.code waited.reaped waited.table) := by
  induction turns generalizing k part with
  | zero =>
      cases part with
      | returned code reaped table => cases ended; exact reached
      | scheduling point => cases ended
  | succ turns ih =>
      cases part with
      | returned code reaped table => cases ended; exact reached
      | scheduling point =>
          obtain ⟨next, resumed, rest⟩ := Option.bind_eq_some_iff.mp ended
          apply ih ?_ rest
          rw [resumeWait_some (rings (k + 1)) resumed]
          simp only [segment, reached]

theorem follow_segment {turns later : Nat} {part : Segment π} {waited : Waited π}
    (rings : Rings tables lists) (reached : segment tables lists current pid k = some part)
    (returned : segment tables lists current pid (k + later) =
      some (.returned waited.code waited.reaped waited.table))
    (rounds : waited.rounds = k + later) (enough : later ≤ turns)
    (short : ∀ j ≤ k + later, (lists j).length < fuel) :
    follow fuel tables current turns k part = some waited := by
  induction later generalizing k part turns with
  | zero =>
      obtain rfl := Option.some.inj (reached.symm.trans returned)
      obtain ⟨_, code, reaped, table⟩ := waited
      subst rounds
      cases turns <;> rfl
  | succ later ih =>
      obtain ⟨turns, rfl⟩ : ∃ less, turns = less + 1 := ⟨turns - 1, by omega⟩
      cases part with
      | returned code reaped table =>
          rw [segment_over reached later] at returned
          cases returned
      | scheduling point =>
          have next : segment tables lists current pid (k + 1) =
              some ((tables (k + 1)).searchResume (lists (k + 1)) current point) := by
            simp only [segment, reached]
          simp only [follow, resumeWait_eq (rings (k + 1)) (short (k + 1) (by omega)),
            Option.bind_some]
          apply ih next ?_ (by omega) (by omega) ?_
          · rw [← returned, Nat.add_right_comm, Nat.add_assoc]
          · intro j before
            exact short j (by omega)

theorem segment_of_returned {waited : Waited π} (rings : Rings tables lists)
    (ended : doWaitpid fuel tables current pid = some waited) :
    segment tables lists current pid waited.rounds =
      some (.returned waited.code waited.reaped waited.table) := by
  obtain ⟨first, begun, rest⟩ := Option.bind_eq_some_iff.mp ended
  apply segment_follow rings ?_ rest
  rw [beginWait_some (rings 0) begun, segment]

/-- With enough fuel a call returns what its last segment returns. -/
theorem returned_of_segment {waited : Waited π} (rings : Rings tables lists)
    (returned : segment tables lists current pid waited.rounds =
      some (.returned waited.code waited.reaped waited.table)) :
    ∃ enough, ∀ fuel ≥ enough, doWaitpid fuel tables current pid = some waited := by
  have bounded : ∀ n, ∃ bound, ∀ j ≤ n, (lists j).length < bound := by
    intro n
    induction n with
    | zero =>
        refine ⟨(lists 0).length + 1, ?_⟩
        intro j first
        rw [Nat.le_zero.mp first]
        exact Nat.lt_succ_self _
    | succ n ih =>
        obtain ⟨bound, below⟩ := ih
        refine ⟨bound + (lists (n + 1)).length + 1, ?_⟩
        intro j small
        rcases Nat.lt_or_ge n j with last | before
        · obtain rfl : j = n + 1 := by omega
          omega
        · have := below j before
          omega
  obtain ⟨bound, below⟩ := bounded waited.rounds
  refine ⟨bound + waited.rounds, ?_⟩
  intro fuel large
  have short : ∀ j ≤ waited.rounds, (lists j).length < fuel := by
    intro j small
    have := below j small
    omega
  unfold doWaitpid
  rw [beginWait_eq (rings 0) (short 0 (by omega)), Option.bind_some]
  apply follow_segment rings rfl ?_ (Nat.zero_add _).symm (by omega) ?_
  · rw [Nat.zero_add]
    exact returned
  · intro j small
    exact short j (by omega)

/-- The process that a scan has seen last: the end of the list, or what an earlier
scan has left when the list is empty. -/
def lastScanned (lists : Nat → List π) : Nat → Option π
  | 0 => (lists 0).getLast?
  | k + 1 => (lists (k + 1)).getLast?.or (lastScanned lists k)

/-- The call has found a child, but nothing to reap until the `k`-th `schedule()`. -/
structure SleepsOn (tables : Nat → ProcTable π) (lists : Nat → List π) (current : Option π)
    (k : Nat) : Prop where
  child : ∃ p ∈ lists 0, ((tables 0).pcb (some p)).parent = current
  alive : ∀ j ≤ k, ∀ p ∈ lists j, ¬ (tables j).IsZombieChild current p
  last : ∀ j < k, ∀ p, lastScanned lists j = some p →
    ((tables (j + 1)).pcb (some p)).state ≠ .taskZombie

theorem searchAny_reaps {p : π} {found : Bool × Option π} (member : p ∈ list)
    (zombie : table.IsZombieChild current p) :
    ∃ chd ∈ list, table.IsZombieChild current chd ∧
      table.searchAny list current found = table.reap chd := by
  cases search : list.find? (fun p => table.IsZombieChild current p) with
  | none => exact absurd zombie (by simpa using List.find?_eq_none.mp search p member)
  | some chd =>
      refine ⟨chd, List.mem_of_find?_eq_some search, ?_, ?_⟩
      · simpa using List.find?_some search
      · simp only [searchAny, search]

theorem searchAny_finishes {found : Bool × Option π}
    (alive : ∀ p ∈ list, ¬ table.IsZombieChild current p) :
    table.searchAny list current found = table.finishAny
      (found.1 || list.any (fun p => (table.pcb (some p)).parent = current),
        list.getLast?.or found.2) := by
  have none : list.find? (fun p => table.IsZombieChild current p) = none := by
    rw [List.find?_eq_none]
    intro p member
    simpa using alive p member
  simp only [searchAny, none]

/-- The first segment: reap, fail for want of a child, or sleep. -/
theorem searchBegin_any :
    (∃ chd ∈ list, table.IsZombieChild current chd ∧
      table.searchBegin list current 0 = table.reap chd) ∨
    ((∀ p ∈ list, (table.pcb (some p)).parent ≠ current) ∧
      table.searchBegin list current 0 = .returned (-1) none table) ∨
    ((∃ p ∈ list, (table.pcb (some p)).parent = current) ∧
      (∀ p ∈ list, ¬ table.IsZombieChild current p) ∧
      ∃ chd, list.getLast? = some chd ∧
        table.searchBegin list current 0 = .scheduling (.any chd)) := by
  simp only [searchBegin, if_pos]
  by_cases zombie : ∃ p ∈ list, table.IsZombieChild current p
  · obtain ⟨p, member, zombie⟩ := zombie
    exact .inl (searchAny_reaps member zombie)
  · have alive : ∀ p ∈ list, ¬ table.IsZombieChild current p := by
      intro p member child
      exact zombie ⟨p, member, child⟩
    rw [searchAny_finishes alive]
    by_cases own : ∃ p ∈ list, (table.pcb (some p)).parent = current
    · have any : list.any (fun p => (table.pcb (some p)).parent = current) = true := by
        simpa using own
      obtain ⟨p, member, parent⟩ := own
      obtain ⟨chd, last⟩ := Option.isSome_iff_exists.mp
        (List.getLast?_isSome.mpr (List.ne_nil_of_mem member))
      refine .inr (.inr ⟨⟨p, member, parent⟩, alive, chd, last, ?_⟩)
      simp [any, last, finishAny]
    · have none : list.any (fun p => (table.pcb (some p)).parent = current) = false := by
        simpa using own
      refine .inr (.inl ⟨by simpa using own, ?_⟩)
      simp [none, finishAny]

/-- A later segment: reap what was seen last, reap a child, or sleep again. -/
theorem searchResume_any :
    ((table.pcb (some chd)).state = .taskZombie ∧
      table.searchResume list current (.any chd) = table.reap chd) ∨
    ((table.pcb (some chd)).state ≠ .taskZombie ∧ ∃ p ∈ list, table.IsZombieChild current p ∧
      table.searchResume list current (.any chd) = table.reap p) ∨
    ((table.pcb (some chd)).state ≠ .taskZombie ∧
      (∀ p ∈ list, ¬ table.IsZombieChild current p) ∧
      ∃ last, list.getLast?.or (some chd) = some last ∧
        table.searchResume list current (.any chd) = .scheduling (.any last)) := by
  by_cases zombie : (table.pcb (some chd)).state = .taskZombie
  · exact .inl ⟨zombie, by simp only [searchResume, if_pos zombie]⟩
  · simp only [searchResume, if_neg zombie]
    by_cases child : ∃ p ∈ list, table.IsZombieChild current p
    · obtain ⟨p, member, child⟩ := child
      exact .inr (.inl ⟨zombie, searchAny_reaps member child⟩)
    · have alive : ∀ p ∈ list, ¬ table.IsZombieChild current p := by
        intro p member own
        exact child ⟨p, member, own⟩
      rw [searchAny_finishes alive]
      refine .inr (.inr ⟨zombie, alive, ?_⟩)
      cases last : list.getLast? with
      | none => exact ⟨chd, by simp, by simp [finishAny]⟩
      | some p => exact ⟨p, by simp, by simp [finishAny]⟩

/-- A call that sleeps has found children, but no zombie among them. -/
theorem sleepsOn_of_scheduling {point : WaitPoint π}
    (sleeping : segment tables lists current 0 k = some (.scheduling point)) :
    ∃ chd, point = .any chd ∧ lastScanned lists k = some chd ∧ SleepsOn tables lists current k := by
  induction k generalizing point with
  | zero =>
      rw [segment, Option.some.injEq] at sleeping
      obtain ⟨p, -, -, reaped⟩ | ⟨-, failed⟩ | ⟨own, alive, chd, last, sleeps⟩ :=
        @searchBegin_any _ _ (tables 0) (lists 0) current
      · rw [reaped] at sleeping
        cases sleeping
      · rw [failed] at sleeping
        cases sleeping
      · rw [sleeps] at sleeping
        cases sleeping
        refine ⟨chd, rfl, last, own, ?_, by simp⟩
        intro j first
        rw [Nat.le_zero.mp first]
        exact alive
  | succ k ih =>
      rw [segment] at sleeping
      split at sleeping
      · rename_i point before
        obtain ⟨chd, rfl, last, sleeps⟩ := ih before
        rw [Option.some.injEq] at sleeping
        obtain ⟨-, reaped⟩ | ⟨-, p, -, -, reaped⟩ | ⟨kept, alive, next, seen, again⟩ :=
          @searchResume_any _ _ (tables (k + 1)) (lists (k + 1)) current chd
        · rw [reaped] at sleeping
          cases sleeping
        · rw [reaped] at sleeping
          cases sleeping
        · rw [again] at sleeping
          cases sleeping
          refine ⟨next, rfl, by rw [lastScanned, last, seen], sleeps.child, ?_, ?_⟩
          · intro j small
            rcases Nat.lt_or_ge k j with late | early
            · obtain rfl : j = k + 1 := by omega
              exact alive
            · exact sleeps.alive j early
          · intro j small p seenThen
            rcases Nat.lt_or_ge j k with early | late
            · exact sleeps.last j early p seenThen
            · obtain rfl : j = k := by omega
              rw [last] at seenThen
              exact Option.some.inj seenThen ▸ kept
      · cases sleeping

theorem scheduling_of_sleepsOn (sleeps : SleepsOn tables lists current k) :
    ∃ chd, lastScanned lists k = some chd ∧
      segment tables lists current 0 k = some (.scheduling (.any chd)) := by
  induction k with
  | zero =>
      obtain ⟨p, member, zombie, -⟩ | ⟨childless, -⟩ | ⟨-, -, chd, last, asleep⟩ :=
        @searchBegin_any _ _ (tables 0) (lists 0) current
      · exact absurd zombie (sleeps.alive 0 (Nat.le_refl _) p member)
      · obtain ⟨p, member, own⟩ := sleeps.child
        exact absurd own (childless p member)
      · exact ⟨chd, last, congrArg some asleep⟩
  | succ k ih =>
      obtain ⟨chd, last, before⟩ := ih ⟨sleeps.child, fun j small => sleeps.alive j (by omega),
        fun j small => sleeps.last j (by omega)⟩
      have kept := sleeps.last k (Nat.lt_succ_self k) chd last
      obtain ⟨zombie, -⟩ | ⟨-, p, member, zombie, -⟩ | ⟨-, -, next, seen, again⟩ :=
        @searchResume_any _ _ (tables (k + 1)) (lists (k + 1)) current chd
      · exact absurd zombie kept
      · exact absurd zombie (sleeps.alive (k + 1) (Nat.le_refl _) p member)
      · exact ⟨next, by rw [lastScanned, last, seen], by simp only [segment, before, again]⟩

theorem scheduling_one (wanted : pid ≠ 0)
    (search : (lists 0).find? (fun p => ((tables 0).pcb (some p)).pid = pid) = some chd)
    (own : ((tables 0).pcb (some chd)).parent = current)
    (alive : ∀ j ≤ k, ((tables j).pcb (some chd)).state ≠ .taskZombie) :
    segment tables lists current pid k = some (.scheduling (.one chd)) := by
  induction k with
  | zero =>
      simp only [segment, searchBegin, if_neg wanted, searchOne, search, if_pos own, waitFor,
        if_neg (alive 0 (Nat.le_refl _))]
  | succ k ih =>
      simp only [segment, ih fun j small => alive j (by omega), searchResume, waitFor,
        if_neg (alive (k + 1) (Nat.le_refl _))]

theorem reaped_one (wanted : pid ≠ 0)
    (search : (lists 0).find? (fun p => ((tables 0).pcb (some p)).pid = pid) = some chd)
    (own : ((tables 0).pcb (some chd)).parent = current)
    (alive : ∀ j < k, ((tables j).pcb (some chd)).state ≠ .taskZombie)
    (zombie : ((tables k).pcb (some chd)).state = .taskZombie) :
    segment tables lists current pid k = some ((tables k).reap chd) := by
  cases k with
  | zero =>
      simp only [segment, searchBegin, if_neg wanted, searchOne, search, if_pos own, waitFor,
        if_pos zombie]
  | succ k =>
      have before := scheduling_one wanted search own
        fun j (small : j ≤ k) => alive j (by omega)
      simp only [segment, before, searchResume, waitFor, if_pos zombie]

/-- A child found by its pid is reaped when it is a zombie for the first time. -/
theorem returned_one {code : Int} {reaped : Option π} {after : ProcTable π} (wanted : pid ≠ 0)
    (search : (lists 0).find? (fun p => ((tables 0).pcb (some p)).pid = pid) = some chd)
    (own : ((tables 0).pcb (some chd)).parent = current)
    (returned : segment tables lists current pid k = some (.returned code reaped after)) :
    (∀ j < k, ((tables j).pcb (some chd)).state ≠ .taskZombie) ∧
      ((tables k).pcb (some chd)).state = .taskZombie := by
  have alive : ∀ j ≤ k, (∀ i < j, ((tables i).pcb (some chd)).state ≠ .taskZombie) := by
    intro j small
    induction j with
    | zero => simp
    | succ j ih =>
        have before := ih (by omega)
        intro i less zombie
        rcases Nat.lt_or_ge i j with early | late
        · exact before i early zombie
        · obtain rfl : i = j := by omega
          have ended := reaped_one wanted search own before zombie
          obtain ⟨n, rfl⟩ := Nat.exists_eq_add_of_lt small
          rw [Nat.add_assoc, segment_over ended n] at returned
          cases returned
  refine ⟨alive k (Nat.le_refl k), ?_⟩
  by_contra asleep
  have sleeping := @scheduling_one _ _ tables lists current pid k chd wanted search own (by
    intro j small
    rcases Nat.lt_or_ge j k with early | late
    · exact alive k (Nat.le_refl k) j early
    · obtain rfl : j = k := by omega
      exact asleep)
  rw [sleeping] at returned
  cases returned

/-! ## Whom a call reaps -/

/-- A call that returns 0 has recycled one zombie child of the caller, the one
with the pid that was asked for, and a call without such a child fails. -/
structure ReapsOwnChild (tables : Nat → ProcTable π) (lists : Nat → List π) (current : Option π)
    (pid : Int) : Prop where
  reaped : ∀ fuel waited, doWaitpid fuel tables current pid = some waited → waited.code = 0 →
    ∃ chd ∈ lists waited.rounds, waited.reaped = some chd ∧
      ((tables waited.rounds).pcb (some chd)).state = .taskZombie ∧
      ((tables waited.rounds).pcb (some chd)).parent = current ∧
      (pid ≠ 0 → ((tables waited.rounds).pcb (some chd)).pid = pid) ∧
      waited.table = (tables waited.rounds).recycleChild chd ∧
      waited.table.procs.IsRing .procList (((lists waited.rounds).erase chd).map .node)
  childless : (∀ p ∈ lists 0, ((tables 0).pcb (some p)).parent = current →
      pid ≠ 0 ∧ ((tables 0).pcb (some p)).pid ≠ pid) →
    ∃ enough, ∀ fuel ≥ enough, doWaitpid fuel tables current pid =
      some { rounds := 0, code := -1, reaped := none, table := tables 0 }

/-- For pid 0: whenever `schedule()` returns, the process that was last on the
list is no zombie of another parent.  For another pid: some process has it, and
the first that has it, if it is the caller's child, still is when it has died. -/
def LastIsOwn (tables : Nat → ProcTable π) (lists : Nat → List π) (current : Option π)
    (pid : Int) : Prop :=
  if pid = 0 then
    ∀ k chd, SleepsOn tables lists current k → lastScanned lists k = some chd →
      ((tables (k + 1)).pcb (some chd)).state = .taskZombie →
      chd ∈ lists (k + 1) ∧ ((tables (k + 1)).pcb (some chd)).parent = current
  else
    ∃ chd, (lists 0).find? (fun p => ((tables 0).pcb (some p)).pid = pid) = some chd ∧
      (((tables 0).pcb (some chd)).parent = current → ∀ k,
        (∀ j < k, ((tables j).pcb (some chd)).state ≠ .taskZombie) →
        ((tables k).pcb (some chd)).state = .taskZombie →
        chd ∈ lists k ∧ ((tables k).pcb (some chd)).parent = current ∧
          ((tables k).pcb (some chd)).pid = pid)

@[simp] theorem edit_procs {ptr : Option π} {write : Pcb π → Pcb π} :
    (table.edit ptr write).procs = table.procs := rfl

@[simp] theorem removeLinks_procs {ptr : Option π} :
    (table.removeLinks ptr).procs = table.procs := by
  simp only [removeLinks, editUnlessNull]
  split <;> split <;> rfl

theorem recycleChild_procs :
    (table.recycleChild chd).procs = listDelete table.procs (.node chd) := by
  simp only [recycleChild, free, freeStack, removeLinks_procs]

theorem recycleChild_ring (ring : table.procs.IsRing .procList (list.map .node))
    (member : chd ∈ list) :
    (table.recycleChild chd).procs.IsRing .procList ((list.erase chd).map .node) := by
  obtain ⟨before, behind, split⟩ := List.append_of_mem member
  have nodup : list.Nodup := (List.nodup_cons.mp ring.nodup).2.of_map _
  subst split
  have fresh : chd ∉ before := fun inside => (List.nodup_append.mp nodup).2.2 chd inside chd (by simp) rfl
  rw [List.erase_append_right _ fresh, List.erase_cons_head, recycleChild_procs, List.map_append]
  rw [List.map_append, List.map_cons] at ring
  exact listDelete_ring ring

theorem returned_reap (rings : Rings tables lists)
    (reaped : segment tables lists current pid k = some ((tables k).reap chd)) :
    ∃ fuel, doWaitpid fuel tables current pid = some
      { rounds := k, code := 0, reaped := some chd, table := (tables k).recycleChild chd } := by
  obtain ⟨enough, returns⟩ := @returned_of_segment _ _ tables lists current pid
    { rounds := k, code := 0, reaped := some chd, table := (tables k).recycleChild chd } rings reaped
  exact ⟨enough, returns enough (Nat.le_refl _)⟩

theorem lastIsOwn_of_reaps (rings : Rings tables lists)
    (own : ReapsOwnChild tables lists current pid) : LastIsOwn tables lists current pid := by
  by_cases any : pid = 0
  · subst any
    simp only [LastIsOwn, if_pos]
    intro k chd sleeps last zombie
    obtain ⟨seen, same, sleeping⟩ := scheduling_of_sleepsOn sleeps
    obtain rfl : chd = seen := Option.some.inj (last.symm.trans same)
    have reaped : segment tables lists current 0 (k + 1) = some ((tables (k + 1)).reap chd) := by
      simp only [segment, sleeping, searchResume, if_pos zombie]
    obtain ⟨fuel, returned⟩ := returned_reap rings reaped
    obtain ⟨child, member, same, -, parent, -⟩ := own.reaped fuel _ returned rfl
    cases same
    exact ⟨member, parent⟩
  · simp only [LastIsOwn, if_neg any]
    cases search : (lists 0).find? (fun p => ((tables 0).pcb (some p)).pid = pid) with
    | none =>
        -- The search runs to the end of the list, and the call returns 0 all the same.
        have failed : segment tables lists current pid 0 = some (.returned 0 none (tables 0)) := by
          simp only [segment, searchBegin, if_neg any, searchOne, search]
        obtain ⟨enough, returns⟩ := @returned_of_segment _ _ tables lists current pid
          { rounds := 0, code := 0, reaped := none, table := tables 0 } rings failed
        obtain ⟨child, -, same, -⟩ := own.reaped enough _ (returns enough (Nat.le_refl _)) rfl
        cases same
    | some chd =>
        refine ⟨chd, rfl, ?_⟩
        intro parent k alive zombie
        obtain ⟨fuel, returned⟩ := returned_reap rings (reaped_one any search parent alive zombie)
        obtain ⟨child, member, same, -, parent, wanted, -⟩ := own.reaped fuel _ returned rfl
        cases same
        exact ⟨member, parent, wanted any⟩

/-- The process that a call returning 0 has recycled. -/
theorem reaped_of_lastIsOwn {reaped : Option π} {after : ProcTable π}
    (own : LastIsOwn tables lists current pid)
    (returned : segment tables lists current pid k = some (.returned 0 reaped after)) :
    ∃ chd ∈ lists k, .returned 0 reaped after = (tables k).reap chd ∧
      ((tables k).pcb (some chd)).state = .taskZombie ∧
      ((tables k).pcb (some chd)).parent = current ∧
      (pid ≠ 0 → ((tables k).pcb (some chd)).pid = pid) := by
  by_cases any : pid = 0
  · subst any
    simp only [LastIsOwn, if_pos] at own
    cases k with
    | zero =>
        rw [segment, Option.some.injEq] at returned
        obtain ⟨chd, member, zombie, reaps⟩ | ⟨-, failed⟩ | ⟨-, -, chd, -, sleeps⟩ :=
          @searchBegin_any _ _ (tables 0) (lists 0) current
        · exact ⟨chd, member, returned.symm.trans reaps, zombie.2, zombie.1, by simp⟩
        · rw [failed] at returned
          cases returned
        · rw [sleeps] at returned
          cases returned
    | succ k =>
        rw [segment] at returned
        split at returned
        · rename_i point before
          obtain ⟨chd, rfl, last, sleeps⟩ := sleepsOn_of_scheduling before
          rw [Option.some.injEq] at returned
          obtain ⟨zombie, reaps⟩ | ⟨-, p, member, zombie, reaps⟩ | ⟨-, -, next, -, again⟩ :=
            @searchResume_any _ _ (tables (k + 1)) (lists (k + 1)) current chd
          · obtain ⟨member, parent⟩ := own k chd sleeps last zombie
            exact ⟨chd, member, returned.symm.trans reaps, zombie, parent, by simp⟩
          · exact ⟨p, member, returned.symm.trans reaps, zombie.2, zombie.1, by simp⟩
          · rw [again] at returned
            cases returned
        · cases returned
  · simp only [LastIsOwn, if_neg any] at own
    obtain ⟨chd, search, kept⟩ := own
    by_cases parent : ((tables 0).pcb (some chd)).parent = current
    · obtain ⟨alive, zombie⟩ := returned_one any search parent returned
      have reaps := reaped_one any search parent alive zombie
      obtain ⟨member, parent, wanted⟩ := kept parent k alive zombie
      exact ⟨chd, member, Option.some.inj (returned.symm.trans reaps), zombie, parent,
        fun _ => wanted⟩
    · have failed : segment tables lists current pid 0 =
          some (.returned (-1) none (tables 0)) := by
        simp only [segment, searchBegin, if_neg any, searchOne, search, if_neg parent]
      cases k with
      | zero =>
          rw [failed] at returned
          cases returned
      | succ k =>
          have later := segment_over failed k
          rw [Nat.zero_add] at later
          rw [later] at returned
          cases returned

theorem fails_of_childless (own : LastIsOwn tables lists current pid)
    (childless : ∀ p ∈ lists 0, ((tables 0).pcb (some p)).parent = current →
      pid ≠ 0 ∧ ((tables 0).pcb (some p)).pid ≠ pid) :
    segment tables lists current pid 0 = some (.returned (-1) none (tables 0)) := by
  by_cases any : pid = 0
  · subst any
    obtain ⟨chd, member, zombie, -⟩ | ⟨-, failed⟩ | ⟨⟨p, member, parent⟩, -⟩ :=
      @searchBegin_any _ _ (tables 0) (lists 0) current
    · exact absurd rfl (childless chd member zombie.1).1
    · rw [segment, failed]
    · exact absurd rfl (childless p member parent).1
  · simp only [LastIsOwn, if_neg any] at own
    obtain ⟨chd, search, -⟩ := own
    have wanted : ((tables 0).pcb (some chd)).pid = pid := by simpa using List.find?_some search
    have stranger : ((tables 0).pcb (some chd)).parent ≠ current := by
      intro parent
      exact (childless chd (List.mem_of_find?_eq_some search) parent).2 wanted
    simp only [segment, searchBegin, if_neg any, searchOne, search, if_neg stranger]

theorem reaps_own_child (rings : Rings tables lists) (current : π) (pid : Int) :
    ReapsOwnChild tables lists (some current) pid ↔ LastIsOwn tables lists (some current) pid := by
  constructor
  · exact lastIsOwn_of_reaps rings
  · intro own
    constructor
    · intro fuel waited returned zero
      have last := segment_of_returned rings returned
      rw [zero] at last
      obtain ⟨chd, member, reaps, zombie, parent, wanted⟩ := reaped_of_lastIsOwn own last
      simp only [reap, Segment.returned.injEq, true_and] at reaps
      refine ⟨chd, member, reaps.1, zombie, parent, wanted, reaps.2, ?_⟩
      rw [reaps.2]
      exact recycleChild_ring (rings _) member
    · intro childless
      exact @returned_of_segment _ _ tables lists (some current) pid
        { rounds := 0, code := -1, reaped := none, table := tables 0 } rings
        (fails_of_childless own childless)

/-- Memory of zeros, in which a PCB is a number. -/
def blank : ProcTable Nat where
  pcb _ := ⟨.taskReady, 0, 0, none, .notWt, none, none, none, 0⟩
  procs := ⟨id, id⟩
  allocated _ := false
  released := []
  idle := none
  initProc := none
  procNum := 0
  pids _ := 0#32
  clock := 0

/-- `idle`, PCB 0, has the children 1 and 2, and 2 has the child 3. -/
def threeProcs : ProcTable Nat :=
  let table := blank.procInit 0 0
  let table := (table.doFork (some 0) (some 1) (some 0)).2
  let table := (table.doFork (some 0) (some 2) (some 0)).2
  (table.doFork (some 2) (some 3) (some 0)).2

/-- The process is dead when the first `schedule()` returns. -/
def threeProcsKill (p : Nat) : Nat → ProcTable Nat
  | 0 => threeProcs
  | _ + 1 => threeProcs.edit (some p) fun pcb => { pcb with state := .taskZombie }

theorem threeProcs_ring : threeProcs.procs.IsRing .procList ([3, 2, 1].map .node) := by
  refine ⟨by decide, ?_, ?_, ?_, ?_⟩ <;> exact ⟨by decide +kernel, by decide +kernel⟩

/-- Process 2 waits for its child by its pid, and the child dies. -/
theorem reaps_own_child_by_pid :
    ReapsOwnChild (threeProcsKill 3) (fun _ => [3, 2, 1]) (some 2) 3 := by
  have rings : Rings (threeProcsKill 3) (fun _ => [3, 2, 1]) := by
    intro k
    cases k <;> exact threeProcs_ring
  apply (reaps_own_child rings 2 3).mpr
  refine ⟨3, by decide +kernel, ?_⟩
  intro _ k _ _
  cases k with
  | zero => exact ⟨by simp, by decide +kernel, by decide +kernel⟩
  | succ k =>
      have dead : ((threeProcsKill 3 1).pcb (some 3)).parent = some 2 ∧
          ((threeProcsKill 3 1).pcb (some 3)).pid = 3 := by
        decide +kernel
      exact ⟨by simp, dead⟩

/-- Process 2 waits for any child, and reaps process 1 of `idle`; when it waits for
a pid that nobody has, it returns 0. -/
theorem reaps_child_of_idle :
    ¬ ReapsOwnChild (threeProcsKill 1) (fun _ => [3, 2, 1]) (some 2) 0 ∧
    ¬ ReapsOwnChild (threeProcsKill 1) (fun _ => [3, 2, 1]) (some 2) 9 := by
  constructor
  · intro own
    have runs : (doWaitpid 5 (threeProcsKill 1) (some 2) 0).any (fun waited =>
        decide (waited.rounds = 1 ∧ waited.code = 0 ∧ waited.reaped = some 1)) = true := by
      decide +kernel
    cases ended : doWaitpid 5 (threeProcsKill 1) (some 2) 0 with
    | none => simp [ended] at runs
    | some waited =>
        obtain ⟨rounds, code, reaped⟩ : waited.rounds = 1 ∧ waited.code = 0 ∧
            waited.reaped = some 1 := by
          simpa only [ended, Option.any_some, decide_eq_true_eq] using runs
        obtain ⟨chd, -, same, -, parent, -⟩ := own.reaped 5 waited ended code
        obtain rfl : 1 = chd := Option.some.inj (reaped.symm.trans same)
        rw [rounds] at parent
        exact absurd parent (by decide +kernel)
  · intro own
    have runs : (doWaitpid 5 (threeProcsKill 1) (some 2) 9).any (fun waited =>
        decide (waited.code = 0 ∧ waited.reaped = none)) = true := by
      decide +kernel
    cases ended : doWaitpid 5 (threeProcsKill 1) (some 2) 9 with
    | none => simp [ended] at runs
    | some waited =>
        obtain ⟨code, reaped⟩ : waited.code = 0 ∧ waited.reaped = none := by
          simpa only [ended, Option.any_some, decide_eq_true_eq] using runs
        obtain ⟨chd, -, same, -⟩ := own.reaped 5 waited ended code
        rw [reaped] at same
        cases same

end ProcTable

end WindOs.Proc
