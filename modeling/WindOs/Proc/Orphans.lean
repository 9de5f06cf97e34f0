import WindOs.Proc.Zombie

namespace WindOs.Proc

open Data Sync Sched

universe u

/-! # The children of an exiting process

`send_chld_to_init` takes the children one by one from the list of the dying process and
puts them on that of `init_proc`.  Nobody looks whether there is an `init_proc`, whether it
is alive, or whether it is the dying process itself.
-/

namespace ProcTable

variable {π : Type u} [DecidableEq π] {table after : ProcTable π} {kin : π → List π}
  {done rest : List π} {c d p q : π} {fuel : Nat}

/-- The list of children of a process, from `cptr` along `optr`. -/
def Children (table : ProcTable π) (p : π) (list : List π) : Prop :=
  Forward (fun q => (table.pcb (some q)).optr) (table.pcb (some p)).cptr list

/-- Each former child is once on the list of one process that stays alive, and on that of
no other. -/
def Rehomed (table after : ProcTable π) (d : π) (former : List π) : Prop :=
  ∀ c ∈ former, ∃ p list, table.Alive p ∧ p ≠ d ∧ after.Children p list ∧ list.count c = 1 ∧
    ∀ o, table.Alive o → o ≠ d → o ≠ p → ∀ others, after.Children o others → c ∉ others

/-- `do_exit` comes to the end of its loop, with no child left and none lost. -/
def HandsOver (table : ProcTable π) (d : π) (former : List π) : Prop :=
  ∃ fuel after, table.doExit fuel (some d) = some after ∧ (after.pcb (some d)).cptr = none ∧
    Rehomed table after d former

theorem handOver_cptr : ((table.handOver (some d) (some c)).pcb (some q)).cptr =
    if table.initProc = some q then some c
    else if q = d then (table.pcb (some c)).optr else (table.pcb (some q)).cptr := by
  obtain ⟨state, same, -⟩ := @handOver_pcb _ _ table q d c
  rw [same]
  simp [adopt, setParent, detach, eq_comm]

theorem handOver_optr (other : table.initProc ≠ some d) :
    ((table.handOver (some d) (some c)).pcb (some q)).optr =
      if q = c then (table.pcb table.initProc).cptr else (table.pcb (some q)).optr := by
  obtain ⟨state, same, -⟩ := @handOver_pcb _ _ table q d c
  rw [same]
  simp [adopt, setParent, detach, other]

/-- Some children have been handed over, and the rest are still where they were. -/
structure Passing (table : ProcTable π) (kin : π → List π) (d : π) (done rest : List π)
    (state : ProcTable π) : Prop where
  initProc : state.initProc = table.initProc
  split : kin d = done ++ rest
  left : (state.pcb (some d)).cptr = rest.head?
  optr : ∀ q ∉ done, (state.pcb (some q)).optr = (table.pcb (some q)).optr
  cptr : ∀ q, q ≠ d → table.initProc ≠ some q →
    (state.pcb (some q)).cptr = (table.pcb (some q)).cptr
  adopted : ∀ i, table.initProc = some i → table.allocated i = true →
    state.Children i (done.reverse ++ kin i)

omit [DecidableEq π] in
theorem Linked.children (linked : table.Linked kin) (live : table.allocated p = true) :
    table.Children p (kin p) := by
  rw [Children, linked.first p live]
  exact (linked.chain p live).forward

variable {state : ProcTable π}

theorem Passing.handOver (passing : Passing table kin d done (c :: rest) state)
    (linked : table.Linked kin) (live : table.allocated d = true) (other : table.initProc ≠ some d) :
    Passing table kin d (done ++ [c]) rest (state.handOver (some d) (some c)) := by
  have otherNow : state.initProc ≠ some d := by
    rw [passing.initProc]
    exact other
  have nodup := linked.nodup d live
  have chain := linked.chain d live
  rw [passing.split] at nodup chain
  have fresh : c ∉ done := fun member => (List.nodup_append.mp nodup).2.2 c member c (by simp) rfl
  have next : (state.pcb (some c)).optr = rest.head? := by
    rw [passing.optr c fresh]
    exact chain.links.1
  refine ⟨handOver_initProc.trans passing.initProc, by simp [passing.split], ?_, ?_, ?_, ?_⟩
  · rw [handOver_cptr, if_neg otherNow, if_pos rfl, next]
  · intro q outside
    rw [List.mem_append, List.mem_singleton, not_or] at outside
    rw [handOver_optr otherNow, if_neg outside.2]
    exact passing.optr q outside.1
  · intro q notParent notInit
    rw [handOver_cptr, passing.initProc, if_neg notInit, if_neg notParent]
    exact passing.cptr q notParent notInit
  · intro i named known
    have namedNow : state.initProc = some i := passing.initProc.trans named
    have different : i ≠ d := by
      rintro rfl
      exact other named
    have elsewhere : c ∉ done.reverse ++ kin i := by
      rw [List.mem_append, List.mem_reverse, not_or]
      refine ⟨fresh, ?_⟩
      intro member
      exact different (linked.apart i known d live c member (by simp [passing.split]))
    rw [List.reverse_append, List.reverse_singleton, List.singleton_append, List.cons_append]
    refine ⟨?_, ?_⟩
    · rw [handOver_cptr, if_pos namedNow]
    · have behind : ((state.handOver (some d) (some c)).pcb (some c)).optr =
          (state.pcb (some i)).cptr := by
        rw [handOver_optr otherNow, if_pos rfl, namedNow]
      show Forward _ ((state.handOver (some d) (some c)).pcb (some c)).optr _
      rw [behind]
      refine (passing.adopted i named known).congr ?_
      intro q member
      have notChild : q ≠ c := by
        rintro rfl
        exact elsewhere member
      rw [handOver_optr otherNow, if_neg notChild]

/-- The loop of `send_chld_to_init`. -/
def handOverRound (current : Option π) (table : ProcTable π) : ProcTable π ⊕ ProcTable π :=
  if (table.pcb current).cptr ≠ none then .inl (table.handOver current (table.pcb current).cptr)
  else .inr table

theorem Passing.exit (passing : Passing table kin d done [] state) :
    handOverRound (some d) state = .inr state := by
  rw [handOverRound, if_neg (by simp [passing.left])]

theorem Passing.ends (passing : Passing table kin d done rest state) (linked : table.Linked kin)
    (live : table.allocated d = true) (other : table.initProc ≠ some d) :
    ∃ after, loop (handOverRound (some d)) (rest.length + 1) state = some after ∧
      Passing table kin d (kin d) [] after := by
  induction rest generalizing done state with
  | nil =>
      refine ⟨state, loop_exit passing.exit, ?_⟩
      have all : kin d = done := by simpa using passing.split
      rw [all]
      exact passing
  | cons c rest ih =>
      have first : (state.pcb (some d)).cptr = some c := passing.left
      have round : handOverRound (some d) state = .inl (state.handOver (some d) (some c)) := by
        rw [handOverRound, if_pos (by simp [first]), first]
      obtain ⟨after, ended, last⟩ := ih (passing.handOver linked live other)
      exact ⟨after, (loop_next round).trans ended, last⟩

/-- What `do_exit` has done before the loop. -/
def dying (table : ProcTable π) (d : π) : ProcTable π :=
  let table := table.edit (some d) fun pcb => { pcb with state := .taskZombie }
  if (table.pcb (table.pcb (some d)).parent).waitstate = .wtChild then
    table.wakeupProcess (table.pcb (some d)).parent
  else table

theorem doExit_eq : table.doExit fuel (some d) = loop (handOverRound (some d)) fuel (table.dying d) := rfl

theorem dying_links : ((table.dying d).pcb (some q)).cptr = (table.pcb (some q)).cptr ∧
    ((table.dying d).pcb (some q)).optr = (table.pcb (some q)).optr := by
  obtain ⟨state, same⟩ := @dying_pcb _ _ table
    ((table.edit (some d) fun pcb => { pcb with state := .taskZombie }).pcb (some d)).parent q d
    (((table.edit (some d) fun pcb => { pcb with state := .taskZombie }).pcb
      ((table.edit (some d) fun pcb => { pcb with state := .taskZombie }).pcb
        (some d)).parent).waitstate = .wtChild) _
  rw [dying, same]
  exact ⟨rfl, rfl⟩

theorem dying_initProc : (table.dying d).initProc = table.initProc := by
  simp only [dying]
  split <;> rfl

theorem passing_start (linked : table.Linked kin) (live : table.allocated d = true) :
    Passing table kin d [] (kin d) (table.dying d) where
  initProc := dying_initProc
  split := rfl
  left := by
    rw [dying_links.1]
    exact linked.first d live
  optr q _ := dying_links.2
  cptr q _ _ := dying_links.1
  adopted i _ known := by
    have children := linked.children known
    rw [Children, dying_links.1]
    exact children.congr fun q _ => dying_links.2

/-- When `init_proc` itself exits, each child comes back to it. -/
theorem handOver_endless (named : table.initProc = some d) (left : (table.pcb (some d)).cptr ≠ none) :
    loop (handOverRound (some d)) fuel table = none := by
  cases ended : loop (handOverRound (some d)) fuel table with
  | none => rfl
  | some after =>
      refine absurd ?_ not_false
      refine @loop_invariant _ _ _ _ _ _
        (fun state : ProcTable π => state.initProc = some d ∧ (state.pcb (some d)).cptr ≠ none)
        (fun _ => False) ?_ ?_ ended ⟨named, left⟩
      · rintro state next ⟨named, left⟩ round
        rw [handOverRound, if_pos left] at round
        obtain rfl := Sum.inl.inj round
        obtain ⟨c, first⟩ := Option.ne_none_iff_exists'.mp left
        rw [first]
        refine ⟨handOver_initProc.trans named, ?_⟩
        rw [handOver_cptr, if_pos named]
        simp
      · rintro state result ⟨-, left⟩ round
        rw [handOverRound, if_pos left] at round
        cases round

variable {i o : π}

omit [DecidableEq π] in
theorem Passing.kept (passing : Passing table kin d done rest state) (linked : table.Linked kin)
    (live : table.allocated d = true) (known : table.allocated o = true) (notDying : o ≠ d)
    (notInit : table.initProc ≠ some o) : state.Children o (kin o) := by
  rw [Children, passing.cptr o notDying notInit]
  refine (linked.children known).congr ?_
  intro q member
  apply passing.optr
  intro handed
  exact notDying (linked.apart o known d live q member (by simp [passing.split, handed]))

omit [DecidableEq π] in
/-- A process other than `init_proc` does not get a child of the dying one. -/
theorem Passing.elsewhere (passing : Passing table kin d done rest state) (linked : table.Linked kin)
    (live : table.allocated d = true) (member : c ∈ kin d) (known : table.allocated o = true)
    (notDying : o ≠ d) (notInit : table.initProc ≠ some o) {others : List π}
    (children : state.Children o others) : c ∉ others := by
  rw [children.unique (passing.kept linked live known notDying notInit)]
  intro also
  exact notDying (linked.apart o known d live c also member)

theorem Passing.once (linked : table.Linked kin) (live : table.allocated d = true)
    (known : table.allocated i = true) (different : i ≠ d) (member : c ∈ kin d) :
    ((kin d).reverse ++ kin i).count c = 1 := by
  have absent : c ∉ kin i := fun also => different (linked.apart i known d live c also member)
  rw [List.count_append, List.count_reverse, List.count_eq_zero_of_not_mem absent,
    List.count_eq_one_of_mem (linked.nodup d live) member]

theorem Passing.rehomed (passing : Passing table kin d (kin d) [] after) (linked : table.Linked kin)
    (live : table.allocated d = true) (named : table.initProc = some i) (different : i ≠ d)
    (alive : table.Alive i) : Rehomed table after d (kin d) := by
  intro c member
  refine ⟨i, _, alive, different, passing.adopted i named alive.1,
    once linked live alive.1 different member, ?_⟩
  intro o aliveToo notDying notInit others children
  refine passing.elsewhere linked live member aliveToo.1 notDying ?_ children
  rw [named]
  exact fun same => notInit (Option.some.inj same).symm

/-- The children of an exiting process all come to a live one exactly if there are none, or
`init_proc` is alive and another process. -/
theorem handsOver_iff (linked : table.Linked kin) (alive : table.Alive d) :
    table.HandsOver d (kin d) ↔
      kin d = [] ∨ ∃ i, table.initProc = some i ∧ i ≠ d ∧ table.Alive i := by
  have start := passing_start linked alive.1
  constructor
  · rintro ⟨fuel, after, ended, -, rehomed⟩
    rw [doExit_eq] at ended
    cases children : kin d with
    | nil => exact .inl rfl
    | cons c rest =>
        right
        have member : c ∈ kin d := by simp [children]
        have other : table.initProc ≠ some d := by
          intro named
          have left : ((table.dying d).pcb (some d)).cptr ≠ none := by simp [start.left, children]
          rw [handOver_endless (dying_initProc.trans named) left] at ended
          cases ended
        obtain ⟨last, lastEnded, passing⟩ := start.ends linked alive.1 other
        obtain rfl := loop_unique ended lastEnded
        obtain ⟨p, list, aliveToo, notDying, found, once, -⟩ := rehomed c member
        have inside : c ∈ list := List.count_pos_iff.mp (by omega)
        refine ⟨p, ?_, notDying, aliveToo⟩
        by_contra notInit
        exact passing.elsewhere linked alive.1 member aliveToo.1 notDying notInit found inside
  · rintro (childless | ⟨i, named, different, aliveToo⟩)
    · rw [childless] at start ⊢
      refine ⟨1, table.dying d, ?_, start.left, by simp [Rehomed]⟩
      rw [doExit_eq]
      exact loop_exit start.exit
    · have other : table.initProc ≠ some d := by
        rw [named]
        exact fun same => different (Option.some.inj same)
      obtain ⟨after, ended, passing⟩ := start.ends linked alive.1 other
      rw [← doExit_eq] at ended
      exact ⟨_, after, ended, passing.left, passing.rehomed linked alive.1 named different aliveToo⟩

/-- Process 2 leaves its child 3 to `init_proc`. -/
theorem handsOver_grandchild : ∃ (table : ProcTable Nat) (kin : Nat → List Nat),
    (familyMachine Nat).run firstFamily [.fork 1 (some 2) (some 0), .fork 2 (some 3) (some 0)] =
        some table ∧
      (kin 2).head? = some 3 ∧ table.HandsOver 2 (kin 2) := by
  have runs : ((familyMachine Nat).run firstFamily
      [.fork 1 (some 2) (some 0), .fork 2 (some 3) (some 0)]).any (fun table =>
        decide (table.Alive 1 ∧ table.Alive 2 ∧ table.initProc = some 1 ∧
          (table.pcb (some 2)).cptr = some 3)) = true := by
    decide +kernel
  obtain ⟨table, ran, facts⟩ := (Option.any_eq_true _ _).mp runs
  obtain ⟨init, alive, named, child⟩ := of_decide_eq_true facts
  obtain ⟨kin, _, _, family, -⟩ := family_of_reachable (.run (.start firstFamily_start) ran)
  refine ⟨table, kin, ran, ?_, ?_⟩
  · rw [← family.linked.first 2 alive.1]
    exact child
  · exact (handsOver_iff family.linked alive).mpr (.inr ⟨1, named, by decide, init⟩)

/-- `init_proc` exits and has a child left. -/
theorem init_exit_endless : ∃ (table : ProcTable Nat) (kin : Nat → List Nat),
    (familyMachine Nat).run firstFamily [.fork 1 (some 2) (some 0)] = some table ∧
      table.Linked kin ∧ table.Alive 1 ∧ (kin 1).head? = some 2 ∧
      (∀ fuel, table.doExit fuel (some 1) = none) ∧ ¬ table.HandsOver 1 (kin 1) := by
  have runs : ((familyMachine Nat).run firstFamily [.fork 1 (some 2) (some 0)]).any (fun table =>
      decide (table.Alive 1 ∧ table.initProc = some 1 ∧
        (table.pcb (some 1)).cptr = some 2)) = true := by
    decide +kernel
  obtain ⟨table, ran, facts⟩ := (Option.any_eq_true _ _).mp runs
  obtain ⟨alive, named, child⟩ := of_decide_eq_true facts
  obtain ⟨kin, _, _, family, -⟩ := family_of_reachable (.run (.start firstFamily_start) ran)
  have endless : ∀ fuel, table.doExit fuel (some 1) = none := by
    intro fuel
    rw [doExit_eq]
    refine handOver_endless (dying_initProc.trans named) ?_
    rw [dying_links.1, child]
    simp
  refine ⟨table, kin, ran, family.linked, alive, ?_, endless, ?_⟩
  · rw [← family.linked.first 1 alive.1]
    exact child
  · rintro ⟨fuel, after, ended, -⟩
    rw [endless] at ended
    cases ended

end ProcTable

end WindOs.Proc
