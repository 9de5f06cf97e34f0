import WindOs.Proc.Waitpid

namespace WindOs.Proc

open Data Sync Sched

universe u

/-! # The books of the process table

`proc_num` and the bitmap of the pids are to agree with `proc_list`.
-/

def pidUsed (pids : Nat → BitVec 32) (k : Nat) : Prop :=
  getBit (pids (k / 32)) (31 - k % 32) = 1

theorem getBit_eq_one {num : BitVec 32} {pos : Nat} (small : pos < 32) :
    getBit num pos = 1 ↔ num.getLsbD pos = true := by
  have masked : num &&& (1#32 <<< pos) =
      if num.getLsbD pos then BitVec.twoPow 32 pos else 0#32 := BitVec.and_twoPow num pos
  have power : BitVec.twoPow 32 pos ≠ 0#32 := by
    intro zero
    have bit := congrArg (fun word => word.getLsbD pos) zero
    simp [small] at bit
  cases bit : num.getLsbD pos <;> simp [getBit, masked, bit, power]

theorem getBit_eq_zero {num : BitVec 32} {pos : Nat} (small : pos < 32) :
    getBit num pos = 0 ↔ num.getLsbD pos = false := by
  have one := @getBit_eq_one num pos small
  cases bit : num.getLsbD pos with
  | false =>
      have clear : getBit num pos ≠ 1 := by simp [one, bit]
      simp only [getBit] at clear ⊢
      split at clear <;> simp_all
  | true => simp [one.mpr bit]

theorem getLsbD_setBit {num : BitVec 32} {pos other : Nat} (small : other < 32) :
    (setBit num pos true).getLsbD other = (num.getLsbD other || decide (pos = other)) := by
  have power : 1#32 <<< pos = BitVec.twoPow 32 pos := rfl
  simp [setBit, power, small, eq_comm]

namespace ProcTable

theorem clearBit_some {pids : Nat → BitVec 32} {i j : Nat} (found : clearBit pids = some (i, j)) :
    i < 128 ∧ j < 32 ∧ ¬ pidUsed pids (i * 32 + j) := by
  obtain ⟨word, member, inner⟩ := List.exists_of_findSome?_eq_some found
  split at inner
  · obtain ⟨bit, search, same⟩ := Option.map_eq_some_iff.mp inner
    cases same
    have small : j < 32 := List.mem_range.mp (List.mem_of_find?_eq_some search)
    have clear : getBit (pids i) (31 - j) = 0 := by simpa using List.find?_some search
    refine ⟨List.mem_range.mp member, small, ?_⟩
    have quotient : (i * 32 + j) / 32 = i := by omega
    have remainder : (i * 32 + j) % 32 = j := by omega
    simp [pidUsed, quotient, remainder, clear]
  · cases inner

/-- A word in which no clear bit was found has none. -/
theorem word_full {pids : Nat → BitVec 32} {i k : Nat} (word : k / 32 = i)
    (full : (if pids i ≠ 0xFFFFFFFF#32 then
      ((List.range 32).find? fun j => getBit (pids i) (31 - j) = 0).map fun j => (i, j)
      else none) = none) : pidUsed pids k := by
  have position : 31 - k % 32 < 32 := by omega
  rw [pidUsed, getBit_eq_one position, word]
  split at full
  · have search := Option.map_eq_none_iff.mp full
    have taken := List.find?_eq_none.mp search (k % 32) (List.mem_range.mpr (by omega))
    simpa [getBit_eq_zero position] using taken
  · rename_i whole
    simp only [ne_eq, Decidable.not_not] at whole
    have ones : (0xFFFFFFFF#32) = BitVec.allOnes 32 := by decide
    rw [whole, ones, BitVec.getLsbD_allOnes]
    simpa using position

theorem clearBit_none {pids : Nat → BitVec 32} (full : clearBit pids = none) {k : Nat}
    (small : k < 4096) : pidUsed pids k := by
  have inside : k / 32 ∈ List.range bitmapNum :=
    List.mem_range.mpr (by simp only [bitmapNum]; omega)
  exact word_full rfl (List.findSome?_eq_none_iff.mp full (k / 32) inside)

theorem pidUsed_update {pids : Nat → BitVec 32} {i j k : Nat} (small : j < 32) :
    pidUsed (Function.update pids i (setBit (pids i) (31 - j) true)) k ↔
      pidUsed pids k ∨ k = i * 32 + j := by
  have position : 31 - k % 32 < 32 := by omega
  simp only [pidUsed, getBit_eq_one position]
  by_cases word : k / 32 = i
  · subst word
    rw [Function.update_self, getLsbD_setBit position, Bool.or_eq_true, decide_eq_true_eq]
    have same : 31 - j = 31 - k % 32 ↔ k = k / 32 * 32 + j := by omega
    rw [same]
  · rw [Function.update_of_ne word]
    have other : k ≠ i * 32 + j := by omega
    simp [other]

/-! ## The operations and the books -/

variable {π : Type u} [DecidableEq π] {table after : ProcTable π} {idle pcb : π} {list : List π}
  {fuel : Nat} {current : Option π}

/-- The books name the same processes as before. -/
structure SameBooks (before after : ProcTable π) : Prop where
  procs : after.procs = before.procs
  allocated : after.allocated = before.allocated
  idle : after.idle = before.idle
  procNum : after.procNum = before.procNum
  pids : after.pids = before.pids
  pid : ∀ p, before.allocated p = true → (after.pcb (some p)).pid = (before.pcb (some p)).pid

/-- `after` comes out of `table` by assignments to PCBs that leave their pid and their stack. -/
inductive Rewired (table : ProcTable π) : ProcTable π → Prop where
  | refl : Rewired table table
  | edit {middle : ProcTable π} {ptr : Option π} {write : Pcb π → Pcb π} (rewired : Rewired table middle)
      (pid : ∀ pcb, (write pcb).pid = pcb.pid)
      (stack : ∀ pcb, (write pcb).startStack = pcb.startStack) : Rewired table (middle.edit ptr write)
  | setParent {middle : ProcTable π} {child parent : Option π} (rewired : Rewired table middle) :
      Rewired table (middle.setParent child parent)

namespace Rewired

theorem editIf {middle : ProcTable π} {ptr : Option π} {write : Pcb π → Pcb π} {choice : Prop}
    [Decidable choice] (rewired : Rewired table middle) (pid : ∀ pcb, (write pcb).pid = pcb.pid)
    (stack : ∀ pcb, (write pcb).startStack = pcb.startStack) :
    Rewired table (if choice then middle.edit ptr write else middle) := by
  split
  · exact rewired.edit pid stack
  · exact rewired

theorem kept (rewired : Rewired table after) (q : Option π) :
    (after.pcb q).pid = (table.pcb q).pid ∧ (after.pcb q).startStack = (table.pcb q).startStack := by
  induction rewired with
  | refl => exact ⟨rfl, rfl⟩
  | @edit middle ptr write _ pid stack before =>
      by_cases same : q = ptr
      · subst same
        simpa [ProcTable.edit, pid, stack] using before
      · simpa [ProcTable.edit, same] using before
  | @setParent middle child parent _ before =>
      by_cases same : q = child
      · subst same
        simpa [ProcTable.setParent, ProcTable.edit] using before
      · simpa [ProcTable.setParent, ProcTable.edit, same] using before

theorem books (rewired : Rewired table after) : SameBooks table after := by
  induction rewired with
  | refl => exact ⟨rfl, rfl, rfl, rfl, rfl, fun _ _ => rfl⟩
  | edit earlier pid stack before =>
      exact ⟨before.procs, before.allocated, before.idle, before.procNum, before.pids,
        fun p _ => ((earlier.edit pid stack).kept (some p)).1⟩
  | setParent earlier before =>
      exact ⟨before.procs, before.allocated, before.idle, before.procNum, before.pids,
        fun p _ => (earlier.setParent.kept (some p)).1⟩

theorem addLinks {ptr : Option π} : Rewired table (table.addLinks ptr) := by
  simp only [ProcTable.addLinks]
  refine .edit ?_ (fun _ => rfl) fun _ => rfl
  refine .edit ?_ (fun _ => rfl) fun _ => rfl
  exact .edit .refl (fun _ => rfl) fun _ => rfl

theorem removeLinks {child : Option π} : Rewired table (table.removeLinks child) := by
  simp only [ProcTable.removeLinks, editUnlessNull]
  refine .editIf ?_ (fun _ => rfl) fun _ => rfl
  split
  · exact .edit .refl (fun _ => rfl) fun _ => rfl
  · exact .edit .refl (fun _ => rfl) fun _ => rfl

theorem handOver {middle : ProcTable π} {child : Option π} (rewired : Rewired table middle) :
    Rewired table (middle.handOver current child) := by
  simp only [ProcTable.handOver, adopt, detach, wakeupProcess, editUnlessNull]
  refine .editIf ?_ (fun _ => rfl) fun _ => rfl
  refine .setParent ?_
  refine .edit ?_ (fun _ => rfl) fun _ => rfl
  refine .editIf ?_ (fun _ => rfl) fun _ => rfl
  refine .edit ?_ (fun _ => rfl) fun _ => rfl
  refine .edit ?_ (fun _ => rfl) fun _ => rfl
  refine .edit ?_ (fun _ => rfl) fun _ => rfl
  exact .edit rewired (fun _ => rfl) fun _ => rfl

theorem doExit (exited : table.doExit fuel current = some after) : Rewired table after := by
  refine @loop_invariant _ _ _ _ _ _ (Rewired table) (Rewired table) ?_ ?_ exited ?_
  · intro state next rewired round
    split at round
    · cases round
      exact rewired.handOver
    · cases round
  · intro state result rewired round
    split at round
    · cases round
    · cases round
      exact rewired
  · refine .editIf ?_ (fun _ => rfl) fun _ => rfl
    exact .edit .refl (fun _ => rfl) fun _ => rfl

end Rewired

theorem enlist_kept (q : Option π) :
    ((table.enlist pcb current).pcb q).pid = (table.pcb q).pid ∧
      ((table.enlist pcb current).pcb q).startStack = (table.pcb q).startStack := by
  have linked : ∀ start : ProcTable π,
      Rewired start ((start.addLinks (some pcb)).wakeupProcess (some pcb)) := by
    intro start
    exact .edit .addLinks (fun _ => rfl) fun _ => rfl
  simp only [enlist]
  rw [((linked _).kept q).1, ((linked _).kept q).2]
  exact (Rewired.setParent .refl).kept q

/-- A fork that fails has written to the PCB it got from `malloc`, and nowhere else. -/
structure Untouched (table : ProcTable π) (chunk : Option π) (after : ProcTable π) : Prop where
  pcb : ∀ p, chunk ≠ some p → after.pcb (some p) = table.pcb (some p)
  procs : after.procs = table.procs
  allocated : after.allocated = table.allocated
  idle : after.idle = table.idle
  initProc : after.initProc = table.initProc
  procNum : after.procNum = table.procNum
  pids : after.pids = table.pids
  clock : after.clock = table.clock

/-- A new PCB with its pid, before it has a parent. -/
structure Numbered (table : ProcTable π) (pcb : π) (i j : Nat) (after : ProcTable π) : Prop where
  free : clearBit table.pids = some (i, j)
  others : ∀ p ≠ some pcb, after.pcb p = table.pcb p
  pid : (after.pcb (some pcb)).pid = i * 32 + j
  alone : (after.pcb (some pcb)).cptr = none ∧ (after.pcb (some pcb)).yptr = none
  procs : after.procs = table.procs
  allocated : after.allocated = Function.update table.allocated pcb true
  idle : after.idle = table.idle
  initProc : after.initProc = table.initProc
  procNum : after.procNum = table.procNum
  pids : after.pids = Function.update table.pids i (setBit (table.pids i) (31 - j) true)
  clock : after.clock = table.clock

theorem doFork_cases {chunk : Option π} {stack : Option Nat}
    (fresh : ∀ pcb, chunk = some pcb → table.allocated pcb = false) :
    ((table.doFork current chunk stack).1 = -1 ∧
      Untouched table chunk (table.doFork current chunk stack).2) ∨
    ∃ pcb i j numbered, chunk = some pcb ∧ Numbered table pcb i j numbered ∧
      (table.doFork current chunk stack).2 = numbered.enlist pcb current ∧
      (table.doFork current chunk stack).1 ≠ -1 := by
  by_cases full : table.procNum > maxProcess
  · simp only [doFork, if_pos full]
    exact .inl ⟨trivial, fun _ _ => rfl, rfl, rfl, rfl, rfl, rfl, rfl, rfl⟩
  · cases chunk with
    | none =>
        simp only [doFork, if_neg full]
        exact .inl ⟨trivial, fun _ _ => rfl, rfl, rfl, rfl, rfl, rfl, rfl, rfl⟩
    | some pcb =>
        have unused : Function.update (Function.update table.allocated pcb true) pcb false =
            table.allocated := by
          rw [Function.update_idem, ← fresh pcb rfl, Function.update_eq_self]
        cases stack with
        | none =>
            simp only [doFork, if_neg full, setKthreadStack, Option.map_none]
            refine .inl ⟨trivial, ?_, rfl, unused, rfl, rfl, rfl, rfl, rfl⟩
            intro p other
            have different : some p ≠ some pcb := fun same => other same.symm
            simp [free, createPcb, edit, different]
        | some pages =>
            simp only [doFork, if_neg full, setKthreadStack, Option.map_some]
            cases found : clearBit table.pids with
            | none =>
                simp only [getPid, edit, createPcb, found, if_pos]
                refine .inl ⟨trivial, ?_, rfl, unused, rfl, rfl, rfl, rfl, rfl⟩
                intro p other
                have different : some p ≠ some pcb := fun same => other same.symm
                simp [freeStack, free, different]
            | some bit =>
                obtain ⟨i, j⟩ := bit
                have nonneg : ¬ ((i : Int) * 32 + j = -1) := by omega
                simp only [getPid, edit, createPcb, found, if_neg nonneg]
                refine .inr ⟨pcb, i, j, _, rfl, ?_, rfl, by rw [(enlist_kept _).1]; simpa using nonneg⟩
                refine ⟨found, ?_, ?_, ?_, rfl, rfl, rfl, rfl, rfl, rfl, rfl⟩
                · intro p different
                  simp [different]
                · simp
                · simp

/-! ## Runs of the processes -/

/-- `idle` and the processes of `proc_list` are all there are, and the books count them. -/
structure Accounted (table : ProcTable π) (idle : π) (list : List π) : Prop where
  named : table.idle = some idle
  ring : table.procs.IsRing .procList (list.map .node)
  outside : idle ∉ list
  allocated : ∀ p, table.allocated p = true ↔ p ∈ idle :: list
  num : table.procNum = 1 + list.length
  used : ∀ k < 4096, pidUsed table.pids k ↔
    ∃ p ∈ idle :: list, (table.pcb (some p)).pid = k
  bounded : ∀ p ∈ idle :: list, ∃ k < 4096, (table.pcb (some p)).pid = (k : Nat)

omit [DecidableEq π] in
theorem Accounted.same (accounted : table.Accounted idle list) (books : SameBooks table after) :
    after.Accounted idle list where
  named := books.idle.trans accounted.named
  ring := books.procs ▸ accounted.ring
  outside := accounted.outside
  allocated := books.allocated ▸ accounted.allocated
  num := books.procNum.trans accounted.num
  used k small := by
    rw [books.pids, accounted.used k small]
    constructor
    · rintro ⟨p, member, pid⟩
      exact ⟨p, member, (books.pid p ((accounted.allocated p).mpr member)).trans pid⟩
    · rintro ⟨p, member, pid⟩
      exact ⟨p, member, (books.pid p ((accounted.allocated p).mpr member)).symm.trans pid⟩
  bounded p member := by
    rw [books.pid p ((accounted.allocated p).mpr member)]
    exact accounted.bounded p member

omit [DecidableEq π] in
theorem Untouched.books {chunk : Option π} (untouched : Untouched table chunk after)
    (fresh : ∀ pcb, chunk = some pcb → table.allocated pcb = false) : SameBooks table after := by
  refine ⟨untouched.procs, untouched.allocated, untouched.idle, untouched.procNum,
    untouched.pids, ?_⟩
  intro p live
  rw [untouched.pcb p]
  intro same
  rw [fresh p same] at live
  cases live

theorem Accounted.forked {numbered : ProcTable π} {i j : Nat}
    (accounted : table.Accounted idle list) (new : Numbered table pcb i j numbered)
    (fresh : table.allocated pcb = false) :
    (numbered.enlist pcb current).Accounted idle (pcb :: list) := by
  have absent : pcb ∉ idle :: list := by
    intro member
    rw [(accounted.allocated pcb).mpr member] at fresh
    cases fresh
  obtain ⟨firstWord, firstBit, -⟩ := clearBit_some new.free
  have kept : ∀ p ∈ idle :: list,
      ((numbered.enlist pcb current).pcb (some p)).pid = (table.pcb (some p)).pid := by
    intro p member
    rw [(enlist_kept _).1, new.others]
    intro same
    cases same
    exact absent member
  have own : ((numbered.enlist pcb current).pcb (some pcb)).pid = ((i * 32 + j : Nat) : Int) := by
    rw [(enlist_kept _).1, new.pid]
    rfl
  have members : ∀ p, p ∈ idle :: pcb :: list ↔ p = pcb ∨ p ∈ idle :: list := by
    intro p
    simp only [List.mem_cons]
    tauto
  refine ⟨new.idle.trans accounted.named, ?_, ?_, ?_, ?_, ?_, ?_⟩
  · have procs : (numbered.enlist pcb current).procs =
        listInsertAfter table.procs .procList (.node pcb) := by
      rw [← new.procs]
      rfl
    rw [procs]
    exact listInsertAfter_head_ring accounted.ring (by simpa using fun inside => absent (by simp [inside]))
  · simp only [List.mem_cons, not_or]
    exact ⟨fun same => absent (by simp [same]), accounted.outside⟩
  · intro p
    have allocated : (numbered.enlist pcb current).allocated =
        Function.update table.allocated pcb true := new.allocated
    rw [allocated, members]
    by_cases same : p = pcb
    · simp [same]
    · simp [same, accounted.allocated p]
  · have num : (numbered.enlist pcb current).procNum = numbered.procNum + 1 := rfl
    rw [num, new.procNum, accounted.num, List.length_cons]
    omega
  · intro k small
    have pids : (numbered.enlist pcb current).pids = numbered.pids := rfl
    rw [pids, new.pids, pidUsed_update firstBit, accounted.used k small]
    constructor
    · rintro (⟨p, member, pid⟩ | same)
      · exact ⟨p, (members p).mpr (.inr member), (kept p member).trans pid⟩
      · exact ⟨pcb, by simp, by rw [own, same]⟩
    · rintro ⟨p, member, pid⟩
      rcases (members p).mp member with rfl | old
      · rw [own] at pid
        exact .inr (by omega)
      · exact .inl ⟨p, old, (kept p old).symm.trans pid⟩
  · intro p member
    rcases (members p).mp member with rfl | old
    · exact ⟨i * 32 + j, by omega, own⟩
    · rw [kept p old]
      exact accounted.bounded p old

theorem Accounted.booted {kernStack : Nat} (unbooted : table.Unbooted) :
    (table.procInit idle kernStack).Accounted idle [] := by
  have first : clearBit (fun _ => 0#32) = some (0, 0) := by decide +kernel
  have pids : (table.procInit idle kernStack).pids =
      Function.update (fun _ => 0#32) 0 (setBit 0#32 31 true) := by
    simp only [procInit, getPid, createPcb, edit, first]
  have zero : ((table.procInit idle kernStack).pcb (some idle)).pid = 0 := by
    simp [procInit, getPid, createPcb, edit, first]
  refine ⟨?_, ?_, by simp, ?_, ?_, ?_, ?_⟩
  · simp only [procInit, getPid, createPcb, edit, first]
  · have procs : (table.procInit idle kernStack).procs = listInit table.procs .procList := by
      simp only [procInit, getPid, createPcb, edit, first]
    rw [procs]
    exact listInit_ring
  · intro p
    have allocated : (table.procInit idle kernStack).allocated =
        Function.update table.allocated idle true := by
      simp only [procInit, getPid, createPcb, edit, first]
    rw [allocated]
    by_cases same : p = idle
    · simp [same]
    · simp [same, unbooted.allocated p]
  · simp [procInit, getPid, createPcb, edit, first, unbooted.procNum]
  · intro k small
    have clear : ¬ pidUsed (fun _ => 0#32) k := by
      rw [pidUsed, getBit_eq_one (by omega)]
      simp
    have used := @pidUsed_update (fun _ => 0#32) 0 0 k (by omega)
    rw [pids]
    refine used.trans ?_
    simp [clear, zero, eq_comm]
  · intro p member
    obtain rfl : p = idle := by simpa using member
    exact ⟨0, by omega, zero⟩

end ProcTable

/-- `waiting p` is where the process `p` sleeps in a call of `do_waitpid`. -/
structure ProcState (π : Type u) where
  table : ProcTable π
  waiting : π → Option (WaitPoint π)

/-- What a process does: `chunk` and `stack` are the answers of `malloc` and
`alloc_page`, and `fuel` bounds the rounds of a loop. -/
inductive ProcOp (π : Type u) where
  | fork (p : π) (chunk : Option π) (stack : Option Nat)
  | exit (p : π) (fuel : Nat)
  | wait (p : π) (pid : Int) (fuel : Nat)
  | resume (p : π) (fuel : Nat)

namespace ProcState

variable {π : Type u} [DecidableEq π]

/-- A process that exists, has not exited and does not sleep in `do_waitpid`. -/
def Runs (state : ProcState π) (p : π) : Prop :=
  state.table.allocated p = true ∧ (state.table.pcb (some p)).state ≠ .taskZombie ∧
    state.waiting p = none

instance (state : ProcState π) (p : π) : Decidable (state.Runs p) :=
  inferInstanceAs (Decidable (_ ∧ _ ∧ _))

/-- `do_waitpid` returns, or goes to sleep. -/
def settle (state : ProcState π) (p : π) : Segment π → ProcState π
  | .returned _ _ table => { table, waiting := Function.update state.waiting p none }
  | .scheduling point => { state with waiting := Function.update state.waiting p (some point) }

def step (state : ProcState π) : ProcOp π → Option (ProcState π)
  | .fork p chunk stack =>
      if state.Runs p ∧ chunk.all (fun pcb => !state.table.allocated pcb) then
        some { state with table := (state.table.doFork (some p) chunk stack).2 }
      else none
  | .exit p fuel =>
      if state.Runs p ∧ state.table.idle ≠ some p then
        (state.table.doExit fuel (some p)).map fun table => { state with table }
      else none
  | .wait p pid fuel =>
      if state.Runs p then (state.table.beginWait fuel (some p) pid).map (state.settle p)
      else none
  | .resume p fuel =>
      (state.waiting p).bind fun point =>
        (state.table.resumeWait fuel (some p) point).map (state.settle p)

def machine (π : Type u) [DecidableEq π] : Machine (ProcState π) (ProcOp π) where
  start state := ∃ (table : ProcTable π) (idle : π) (kernStack : Nat), table.Unbooted ∧
    state = { table := table.procInit idle kernStack, waiting := fun _ => none }
  step := step

/-- No call of `do_waitpid` meets a zombie that it would recycle. -/
def ReapsNothing (state : ProcState π) : ProcOp π → Prop
  | .wait p pid _ => ∀ q, state.table.allocated q = true →
      (pid = 0 ∨ (state.table.pcb (some q)).pid = pid) →
      ¬ state.table.IsZombieChild (some p) q
  | .resume p _ => ∀ chd,
      (state.waiting p = some (.any chd) → (state.table.pcb (some chd)).state ≠ .taskZombie ∧
        ∀ q, state.table.allocated q = true → ¬ state.table.IsZombieChild (some p) q) ∧
      (state.waiting p = some (.one chd) → (state.table.pcb (some chd)).state ≠ .taskZombie)
  | _ => True

variable {state after : ProcState π} {table : ProcTable π} {idle p : π} {list : List π}
  {pid : Int} {fuel : Nat}

/-- A segment that reaps nothing leaves the table as it is. -/
def Keeps (table : ProcTable π) : Segment π → Prop
  | .returned _ _ after => after = table
  | .scheduling _ => True

omit [DecidableEq π] in
theorem keeps_finishAny (found : Bool × Option π) : Keeps table (table.finishAny found) := by
  unfold ProcTable.finishAny
  split
  · trivial
  · rfl

theorem keeps_searchBegin (quiet : ∀ q ∈ list, (pid = 0 ∨ (table.pcb (some q)).pid = pid) →
    ¬ table.IsZombieChild (some p) q) : Keeps table (table.searchBegin list (some p) pid) := by
  by_cases any : pid = 0
  · simp only [ProcTable.searchBegin, if_pos any]
    rw [ProcTable.searchAny_finishes fun q member => quiet q member (.inl any)]
    exact keeps_finishAny _
  · simp only [ProcTable.searchBegin, if_neg any, ProcTable.searchOne]
    cases search : list.find? (fun q => (table.pcb (some q)).pid = pid) with
    | none => rfl
    | some q =>
        have wanted : (table.pcb (some q)).pid = pid := by simpa using List.find?_some search
        have alive := quiet q (List.mem_of_find?_eq_some search) (.inr wanted)
        by_cases own : (table.pcb (some q)).parent = some p
        · have running : (table.pcb (some q)).state ≠ .taskZombie := fun dead => alive ⟨own, dead⟩
          simp only [if_pos own, ProcTable.waitFor, if_neg running]
          trivial
        · simp only [if_neg own]
          rfl

theorem keeps_searchResume {point : WaitPoint π}
    (quiet : ∀ chd, (point = .any chd → (table.pcb (some chd)).state ≠ .taskZombie ∧
        ∀ q ∈ list, ¬ table.IsZombieChild (some p) q) ∧
      (point = .one chd → (table.pcb (some chd)).state ≠ .taskZombie)) :
    Keeps table (table.searchResume list (some p) point) := by
  cases point with
  | any chd =>
      obtain ⟨alive, others⟩ := (quiet chd).1 rfl
      simp only [ProcTable.searchResume, if_neg alive]
      rw [ProcTable.searchAny_finishes others]
      exact keeps_finishAny _
  | one chd =>
      simp only [ProcTable.searchResume, ProcTable.waitFor, if_neg ((quiet chd).2 rfl)]
      trivial

omit [DecidableEq π] in
theorem settle_table [DecidableEq π] {segment : Segment π} (keeps : Keeps state.table segment) :
    (state.settle p segment).table = state.table := by
  cases segment with
  | returned code reaped table => exact keeps
  | scheduling point => rfl

theorem accounted_step {op : ProcOp π} (accounted : state.table.Accounted idle list)
    (allowed : state.ReapsNothing op) (moved : state.step op = some after) :
    ∃ listed, after.table.Accounted idle listed := by
  cases op with
  | fork p chunk stack =>
      simp only [step] at moved
      split at moved
      · rename_i enabled
        cases moved
        have fresh : ∀ pcb, chunk = some pcb → state.table.allocated pcb = false := by
          rintro pcb rfl
          simpa using enabled.2
        rcases @ProcTable.doFork_cases _ _ state.table (some p) chunk stack fresh with
          ⟨-, untouched⟩ | ⟨pcb, i, j, numbered, given, new, forked, -⟩
        · exact ⟨list, accounted.same (untouched.books fresh)⟩
        · refine ⟨pcb :: list, ?_⟩
          rw [forked]
          exact accounted.forked new (fresh pcb given)
      · cases moved
  | exit p fuel =>
      simp only [step] at moved
      split at moved
      · obtain ⟨table, exited, rfl⟩ := Option.map_eq_some_iff.mp moved
        exact ⟨list, accounted.same ((ProcTable.Rewired.doExit exited).books)⟩
      · cases moved
  | wait p pid fuel =>
      simp only [step] at moved
      split at moved
      · obtain ⟨segment, begun, rfl⟩ := Option.map_eq_some_iff.mp moved
        refine ⟨list, ?_⟩
        rw [ProcTable.beginWait_some accounted.ring begun, settle_table]
        · exact accounted
        · apply keeps_searchBegin
          intro q member
          exact allowed q ((accounted.allocated q).mpr (by simp [member]))
      · cases moved
  | resume p fuel =>
      obtain ⟨point, asleep, rest⟩ := Option.bind_eq_some_iff.mp moved
      obtain ⟨segment, resumed, rfl⟩ := Option.map_eq_some_iff.mp rest
      refine ⟨list, ?_⟩
      rw [ProcTable.resumeWait_some accounted.ring resumed, settle_table]
      · exact accounted
      · apply keeps_searchResume
        intro chd
        obtain ⟨any, one⟩ := allowed chd
        constructor
        · rintro rfl
          obtain ⟨alive, others⟩ := any asleep
          exact ⟨alive, fun q member => others q ((accounted.allocated q).mpr (by simp [member]))⟩
        · rintro rfl
          exact one asleep

theorem accounted_of_reachable (reached : (machine π).ReachableWithin ReapsNothing state) :
    ∃ idle list, state.table.Accounted idle list := by
  induction reached with
  | start initial =>
      obtain ⟨table, idle, kernStack, unbooted, rfl⟩ := initial
      exact ⟨idle, [], .booted unbooted⟩
  | step _ allowed moved ih =>
      obtain ⟨idle, list, accounted⟩ := ih
      obtain ⟨listed, next⟩ := accounted_step accounted allowed moved
      exact ⟨idle, listed, next⟩

omit [DecidableEq π] in
/-- Every pid is somebody's: there are as many processes as pids. -/
theorem Accounted.crowded (accounted : table.Accounted idle list)
    (full : ProcTable.clearBit table.pids = none) : 4096 ≤ (idle :: list).length := by
  have covered : List.range 4096 ⊆ (idle :: list).map fun p => (table.pcb (some p)).pid.toNat := by
    intro k member
    have small : k < 4096 := List.mem_range.mp member
    obtain ⟨p, inside, pid⟩ := (accounted.used k small).mp (ProcTable.clearBit_none full small)
    exact List.mem_map.mpr ⟨p, inside, by simp [pid]⟩
  have shorter := (List.nodup_range.subperm covered).length_le
  simpa using shorter

/-- As long as no zombie is reaped, `proc_num` is one more than `proc_list` is long
and the bits of `pids` are the pids of `idle` and of the processes on the list; so
a fork runs out of slots or of pids only among so many processes. -/
theorem books_count_processes (reached : (machine π).ReachableWithin ReapsNothing state) :
    ∃ (idle : π) (list : List π), state.table.idle = some idle ∧
      state.table.procs.IsRing .procList (list.map .node) ∧
      state.table.procNum = 1 + list.length ∧
      (∀ k < 4096, pidUsed state.table.pids k ↔
        ∃ p ∈ idle :: list, (state.table.pcb (some p)).pid = k) ∧
      (∀ p ∈ idle :: list, ∃ k < 4096, (state.table.pcb (some p)).pid = (k : Nat)) ∧
      (state.table.procNum > maxProcess → 4096 ≤ list.length) ∧
      (state.table.getPid.1 = -1 → 4096 ≤ (idle :: list).length) := by
  obtain ⟨idle, list, accounted⟩ := accounted_of_reachable reached
  refine ⟨idle, list, accounted.named, accounted.ring, accounted.num, accounted.used,
    accounted.bounded, ?_, ?_⟩
  · intro full
    have num := accounted.num
    simp only [maxProcess] at full
    omega
  · intro failed
    apply Accounted.crowded accounted
    cases found : ProcTable.clearBit state.table.pids with
    | none => rfl
    | some bit =>
        obtain ⟨i, j⟩ := bit
        simp only [ProcTable.getPid, found] at failed
        omega

/-- The kernel after `proc_init`, over memory of zeros. -/
def booted : ProcState Nat where
  table := ProcTable.blank.procInit 0 0
  waiting _ := none

theorem booted_start : (machine Nat).start booted :=
  ⟨ProcTable.blank, 0, 0, ⟨fun _ => rfl, rfl, rfl⟩, rfl⟩

/-- A child that has exited still counts. -/
theorem books_count_processes_zombie :
    ∃ (state : ProcState Nat) (idle : Nat) (list : List Nat),
      (machine Nat).run booted [.fork 0 (some 1) (some 0), .exit 1 1] = some state ∧
      state.table.procs.IsRing .procList (list.map .node) ∧
      state.table.procNum = 1 + list.length ∧ state.table.idle = some idle := by
  have runs : (((machine Nat).step booted (.fork 0 (some 1) (some 0))).bind fun state =>
      (machine Nat).step state (.exit 1 1)).isSome := by
    decide +kernel
  obtain ⟨state, ran⟩ := Option.isSome_iff_exists.mp runs
  obtain ⟨middle, forked, exited⟩ := Option.bind_eq_some_iff.mp ran
  have first : booted.ReapsNothing (.fork 0 (some 1) (some 0)) := trivial
  have second : middle.ReapsNothing (.exit 1 1) := trivial
  obtain ⟨idle, list, named, ring, num, -⟩ := books_count_processes
    (.step (.step (.start booted_start) first forked) second exited)
  exact ⟨state, idle, list, by simp [forked, exited], ring, num, named⟩

/-- A child is forked, exits and is reaped: it keeps its slot and its pid. -/
theorem reaped_child_counted :
    ¬ ∀ state, (machine Nat).Reachable state →
      ∃ list : List Nat, state.table.procs.IsRing .procList (list.map .node) ∧
        state.table.procNum = 1 + list.length := by
  intro always
  have runs : ((machine Nat).run booted
      [.fork 0 (some 1) (some 0), .exit 1 1, .wait 0 1 2]).any (fun state =>
        decide (state.table.procs.next .procList = .procList ∧ state.table.procNum = 2)) = true := by
    decide +kernel
  cases ran : (machine Nat).run booted [.fork 0 (some 1) (some 0), .exit 1 1, .wait 0 1 2] with
  | none => simp [ran] at runs
  | some state =>
      obtain ⟨empty, two⟩ : state.table.procs.next .procList = .procList ∧
          state.table.procNum = 2 := by
        simpa only [ran, Option.any_some, decide_eq_true_eq] using runs
      obtain ⟨list, ring, num⟩ := always state (.run (.start booted_start) ran)
      have first := ring.next_head
      rw [empty] at first
      cases list with
      | nil => simp [two] at num
      | cons p rest => cases first

end ProcState

end WindOs.Proc
