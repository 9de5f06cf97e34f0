import WindOs.Data.Machine
import WindOs.Mm.Vma

namespace WindOs.Mm

open Data

universe u v

/-! # Who uses an address space

`mm->num` is meant to count the processes whose `pcb->mm` is `mm`.  `create_vma`
counts its links there as well, and a copied `mm` starts with the count of the
original.
-/

namespace VmaList

/-- How often `create_vma` links its VMA into the list, and so counts it. -/
def linkings (fuel : Nat) (mm : VmaList) (fields : VmaStruct) : Nat :=
  let mm := mm.mallocVma fields
  match loop (walk mm.nodes .head (mm.visitStart fields.vmmStart) fun begin => (begin, false)) fuel
      (mm.nodes.next .head, .head) with
  | some found => (if found.2 then 1 else 0) + (if found.1 = .head then 1 else 0)
  | none => 0

/-- One round of `copy_mm` over the VMAs of the old `mm`, with the links made so far. -/
def copyVma (fuel : Nat) (old : VmaList) :
    VmaNode × VmaList × Nat → (VmaNode × VmaList × Nat) ⊕ Option (VmaList × Nat)
  | (.head, mm, links) => .inr (some (mm, links))
  | (.vma v, mm, links) =>
      match mm.createVma fuel (old.vmas v) with
      | some (after, _) =>
          .inl (old.nodes.next (.vma v), after, links + mm.linkings fuel (old.vmas v))
      | none => .inr none

/-- The structure copy with its own empty list, and then the VMAs one by one.  The
new VMAs are numbered behind the old ones. -/
def copyVmas (fuel : Nat) (old : VmaList) : Option (VmaList × Nat) :=
  (loop (copyVma fuel old) fuel
    (old.nodes.next .head, { old with nodes := listInit old.nodes .head }, 0)).bind id

variable {mm old : VmaList} {fields : VmaStruct} {fuel : Nat}

theorem createVma_num {result : VmaList × Nat} (bound : mm.num < 2 ^ 32)
    (called : mm.createVma fuel fields = some result) :
    result.1.num = (mm.num + mm.linkings fuel fields) % 2 ^ 32 := by
  obtain ⟨found, ended, rfl⟩ := Option.map_eq_some_iff.mp called
  simp only [linkings, ended]
  have same : (mm.mallocVma fields).num = mm.num := rfl
  obtain ⟨begin, early⟩ := found
  by_cases front : begin = .head
  · cases early <;> simp [place, front, insert, same]
  · have unchanged : mm.num % 2 ^ 32 = mm.num := Nat.mod_eq_of_lt bound
    cases early with
    | true => simp [place, front, insert, same]
    | false => simpa [place, front, insert, same] using unchanged.symm

theorem copyVmas_num {result : VmaList × Nat} (bound : old.num < 2 ^ 32)
    (copied : old.copyVmas fuel = some result) :
    result.1.num = (old.num + result.2) % 2 ^ 32 := by
  obtain ⟨last, ended, found⟩ := Option.bind_eq_some_iff.mp copied
  have found : last = some result := found
  refine @loop_invariant _ _ _ _ _ _
    (fun state => state.2.1.num = (old.num + state.2.2) % 2 ^ 32)
    (fun last => last = some result → result.1.num = (old.num + result.2) % 2 ^ 32) ?_ ?_ ended ?_
    found
  · intro state next counted round
    obtain ⟨node, mm, links⟩ := state
    cases node with
    | head => simp [copyVma] at round
    | vma v =>
        simp only [copyVma] at round
        split at round
        · next after number called =>
            cases round
            have counted : mm.num = (old.num + links) % 2 ^ 32 := counted
            have num := createVma_num (by omega) called
            simp only at num ⊢
            omega
        · cases round
  · intro state last counted round same
    obtain ⟨node, mm, links⟩ := state
    subst same
    cases node with
    | head =>
        simp only [copyVma] at round
        cases round
        exact counted
    | vma v =>
        simp only [copyVma] at round
        split at round
        · cases round
        · cases round
  · simp only
    omega

end VmaList

/-- A `struct mm_struct` that has not been freed.  The last three fields are no
fields of the source: how it was made, the `num` it was made with, and how many
links `create_vma` has made on its list. -/
structure MmStruct where
  list : VmaList
  copied : Bool
  inherited : Nat
  links : Nat

/-- `mm` is the field of the PCBs of processes that have not exited. -/
structure AddressSpaces (μ : Type u) (π : Type v) where
  mms : μ → Option MmStruct
  mm : π → Option μ

inductive SpaceOp (μ : Type u) (π : Type v) where
  | createMm (m : μ)
  | createVma (m : μ) (fields : VmaStruct) (fuel : Nat)
  | copyMm (pcb : π) (isShare : Bool) (old new : μ) (fuel : Nat)
  | deleteMm (pcb : π)

namespace AddressSpaces

variable {μ : Type u} {π : Type v} [DecidableEq μ] [DecidableEq π]

def setMm (spaces : AddressSpaces μ π) (m : μ) (space : Option MmStruct) : AddressSpaces μ π :=
  { spaces with mms := Function.update spaces.mms m space }

def setNum (space : MmStruct) (num : Nat) : MmStruct :=
  { space with list := { space.list with num } }

/-- `copy_mm` into a new PCB; `new` is where `malloc` puts a copy. -/
def copyMm (fuel : Nat) (spaces : AddressSpaces μ π) (pcb : π) (isShare : Bool) (old new : μ) :
    Option (AddressSpaces μ π) :=
  (spaces.mms old).bind fun space =>
    if isShare then
      some { spaces.setMm old (some (setNum space ((space.list.num + 1) % 2 ^ 32))) with
        mm := Function.update spaces.mm pcb (some old) }
    else
      (space.list.copyVmas fuel).map fun copy =>
        { spaces.setMm new (some
            { list := copy.1, copied := true, inherited := space.list.num, links := copy.2 }) with
          mm := Function.update spaces.mm pcb (some new) }

/-- `mm->num -= 1` -/
def lessOne (num : Nat) : Nat :=
  (num + (2 ^ 32 - 1)) % 2 ^ 32

/-- `delete_mm(pcb->mm)` of an exiting process: the `mm` goes when its count is 0. -/
def deleteMm (spaces : AddressSpaces μ π) (pcb : π) : Option (AddressSpaces μ π) :=
  match spaces.mm pcb with
  | none => some spaces
  | some m =>
      (spaces.mms m).map fun space =>
        { spaces.setMm m (if lessOne space.list.num = 0 then none
            else some (setNum space (lessOne space.list.num))) with
          mm := Function.update spaces.mm pcb none }

def step (spaces : AddressSpaces μ π) : SpaceOp μ π → Option (AddressSpaces μ π)
  | .createMm m =>
      if spaces.mms m = none then
        some (spaces.setMm m (some
          { list := VmaList.createMm, copied := false, inherited := 0, links := 0 }))
      else none
  | .createVma m fields fuel =>
      (spaces.mms m).bind fun space =>
        (space.list.createVma fuel fields).map fun result =>
          spaces.setMm m (some
            { space with
              list := result.1
              links := space.links + space.list.linkings fuel fields })
  | .copyMm pcb isShare old new fuel =>
      if spaces.mm pcb = none ∧ (isShare = true ∨ spaces.mms new = none) then
        spaces.copyMm fuel pcb isShare old new
      else none
  | .deleteMm pcb => spaces.deleteMm pcb

def machine (μ : Type u) (π : Type v) [DecidableEq μ] [DecidableEq π] :
    Machine (AddressSpaces μ π) (SpaceOp μ π) where
  start spaces := spaces = { mms := fun _ => none, mm := fun _ => none }
  step := step

section Counting

variable [Fintype π] {spaces after : AddressSpaces μ π} {m other : μ} {p pcb : π}
  {space : MmStruct}

def users (spaces : AddressSpaces μ π) (m : μ) : Nat :=
  tally spaces.mm fun mm => mm = some m

/-- Every `mm` in use is there, and its count is its users, what it was made with
and its VMA links, less the user that comes with a copy. -/
structure Sound (spaces : AddressSpaces μ π) : Prop where
  alive : ∀ p m, spaces.mm p = some m → ∃ space, spaces.mms m = some space
  bound : ∀ m space, spaces.mms m = some space → space.list.num < 2 ^ 32
  counted : ∀ m space, spaces.mms m = some space →
    (space.list.num + space.copied.toNat) % 2 ^ 32 =
      (spaces.users m + space.inherited + space.links) % 2 ^ 32

/-- What was counted besides the users makes up for the user that comes with a copy,
and the users fit into the count. -/
def Settled (spaces : AddressSpaces μ π) (m : μ) (space : MmStruct) : Prop :=
  (space.inherited + space.links) % 2 ^ 32 = space.copied.toNat ∧ spaces.users m < 2 ^ 32

/-- The address space of every process that exits is settled. -/
def ExitsSettled (spaces : AddressSpaces μ π) : SpaceOp μ π → Prop
  | .deleteMm pcb => ∀ m space, spaces.mm pcb = some m → spaces.mms m = some space →
      spaces.Settled m space
  | _ => True

theorem users_join {mms : μ → Option MmStruct} (new : spaces.mm pcb = none) :
    users { mms, mm := Function.update spaces.mm pcb (some m) } other =
      spaces.users other + (if other = m then 1 else 0) := by
  have moved := tally_update spaces.mm (fun mm => decide (mm = some other)) pcb (some m)
  simp only [new, reduceCtorEq, decide_false, Bool.false_eq_true, if_false, decide_eq_true_eq,
    Option.some.injEq] at moved
  simp only [users, eq_comm (a := other)]
  omega

theorem users_leave {mms : μ → Option MmStruct} (used : spaces.mm pcb = some m) :
    users { mms, mm := Function.update spaces.mm pcb none } other +
      (if other = m then 1 else 0) = spaces.users other := by
  have moved := tally_update spaces.mm (fun mm => decide (mm = some other)) pcb none
  simp only [used, reduceCtorEq, decide_false, Bool.false_eq_true, if_false, decide_eq_true_eq,
    Option.some.injEq] at moved
  simp only [users, eq_comm (a := other)]
  omega

omit [DecidableEq π] in
theorem users_eq_zero (unused : ∀ p, spaces.mm p ≠ some m) : spaces.users m = 0 := by
  rw [users, tally_eq_zero_iff]
  intro p
  simpa using unused p

/-- One user is the last one. -/
theorem users_eq_one_iff (used : spaces.mm pcb = some m) :
    spaces.users m = 1 ↔ ∀ q, spaces.mm q = some m → q = pcb := by
  have left := @users_leave _ _ _ _ _ spaces m m pcb spaces.mms used
  rw [if_pos rfl] at left
  rw [← left]
  constructor
  · intro one q member
    by_contra different
    have nobody : users { mms := spaces.mms, mm := Function.update spaces.mm pcb none } m = 0 := by
      omega
    have absent := tally_eq_zero_iff.mp nobody q
    simp [different, member] at absent
  · intro last
    have zero : users { mms := spaces.mms, mm := Function.update spaces.mm pcb none } m = 0 := by
      apply users_eq_zero
      intro q
      by_cases same : q = pcb
      · simp [same]
      · simpa [same] using fun member => same (last q member)
    omega

/-! ## Each operation keeps the count -/

omit [DecidableEq π] in
/-- One `mm` changes, and only it gains or loses users. -/
theorem Sound.change {mm : π → Option μ} {next : Option MmStruct} (sound : spaces.Sound)
    (elsewhere : ∀ p other, other ≠ m → (mm p = some other ↔ spaces.mm p = some other))
    (alive : ∀ p, mm p = some m → next ≠ none)
    (bound : ∀ space, next = some space → space.list.num < 2 ^ 32)
    (counted : ∀ space, next = some space →
      (space.list.num + space.copied.toNat) % 2 ^ 32 =
        (users { mms := spaces.mms, mm } m + space.inherited + space.links) % 2 ^ 32) :
    ({ mms := Function.update spaces.mms m next, mm } : AddressSpaces μ π).Sound := by
  refine ⟨?_, ?_, ?_⟩
  · intro p other used
    by_cases same : other = m
    · subst same
      obtain ⟨space, there⟩ := Option.ne_none_iff_exists'.mp (alive p used)
      exact ⟨space, by simp [there]⟩
    · simpa [same] using sound.alive p other ((elsewhere p other same).mp used)
  · intro other space there
    by_cases same : other = m
    · subst same
      exact bound space (by simpa using there)
    · exact sound.bound other space (by simpa [same] using there)
  · intro other space there
    by_cases same : other = m
    · subst same
      exact counted space (by simpa using there)
    · have users : users { mms := Function.update spaces.mms m next, mm } other =
          spaces.users other := by
        unfold AddressSpaces.users tally
        congr 1
        apply Finset.filter_congr
        intro p _
        simpa using elsewhere p other same
      rw [users]
      exact sound.counted other space (by simpa [same] using there)

omit [DecidableEq π] in
theorem Sound.createMm (sound : spaces.Sound) (free : spaces.mms m = none) :
    (spaces.setMm m (some
      { list := VmaList.createMm, copied := false, inherited := 0, links := 0 })).Sound := by
  have unused : spaces.users m = 0 := by
    apply users_eq_zero
    intro p used
    obtain ⟨space, there⟩ := sound.alive p m used
    rw [free] at there
    contradiction
  apply sound.change (fun _ _ _ => Iff.rfl) (by simp)
  · intro space same
    cases same
    decide
  · intro space same
    cases same
    change _ = (spaces.users m + _ + _) % _
    rw [unused]
    rfl

omit [DecidableEq π] in
theorem Sound.createVma {fields : VmaStruct} {fuel : Nat} {result : VmaList × Nat}
    (sound : spaces.Sound) (there : spaces.mms m = some space)
    (called : space.list.createVma fuel fields = some result) :
    (spaces.setMm m (some
      { space with
        list := result.1
        links := space.links + space.list.linkings fuel fields })).Sound := by
  have bound := sound.bound m space there
  have counted := sound.counted m space there
  have num := VmaList.createVma_num bound called
  apply sound.change (fun _ _ _ => Iff.rfl) (by simp)
  · intro after same
    cases same
    simp only
    omega
  · intro after same
    cases same
    change _ = (spaces.users m + _ + _) % _
    simp only
    omega

theorem Sound.copyMm {isShare : Bool} {old new : μ} {fuel : Nat} (sound : spaces.Sound)
    (fresh : spaces.mm pcb = none) (free : isShare = true ∨ spaces.mms new = none)
    (copied : spaces.copyMm fuel pcb isShare old new = some after) : after.Sound := by
  obtain ⟨space, there, made⟩ := Option.bind_eq_some_iff.mp copied
  have bound := sound.bound old space there
  have elsewhere : ∀ m p other, other ≠ m →
      (Function.update spaces.mm pcb (some m) p = some other ↔ spaces.mm p = some other) := by
    intro m p other different
    by_cases same : p = pcb
    · subst same
      simp [fresh, Ne.symm different]
    · simp [same]
  cases isShare with
  | true =>
      rw [if_pos rfl] at made
      cases made
      have counted := sound.counted old space there
      apply sound.change (elsewhere old) (by simp)
      · intro next same
        cases same
        simp only [setNum]
        omega
      · intro next same
        cases same
        rw [users_join fresh, if_pos rfl]
        simp only [setNum]
        omega
  | false =>
      obtain taken | free := free
      · contradiction
      · rw [if_neg (by simp)] at made
        obtain ⟨copy, walked, rfl⟩ := Option.map_eq_some_iff.mp made
        have num := VmaList.copyVmas_num bound walked
        have unused : spaces.users new = 0 := by
          apply users_eq_zero
          intro p used
          obtain ⟨space, present⟩ := sound.alive p new used
          rw [free] at present
          contradiction
        apply sound.change (elsewhere new) (by simp)
        · intro next same
          cases same
          simp only
          omega
        · intro next same
          cases same
          rw [users_join fresh, if_pos rfl, unused]
          simp only [Bool.toNat_true]
          omega

omit [DecidableEq π] in
/-- Settled, the count is the number of users. -/
theorem Sound.num_eq_users (sound : spaces.Sound) (there : spaces.mms m = some space)
    (settled : spaces.Settled m space) : space.list.num = spaces.users m := by
  have bound := sound.bound m space there
  have counted := sound.counted m space there
  obtain ⟨balance, few⟩ := settled
  have small : space.copied.toNat ≤ 1 := Bool.toNat_le _
  omega

theorem setNum_num {num : Nat} : (setNum space num).list.num = num := rfl

theorem setNum_copied {num : Nat} : (setNum space num).copied = space.copied := rfl

theorem setNum_inherited {num : Nat} : (setNum space num).inherited = space.inherited := rfl

theorem setNum_links {num : Nat} : (setNum space num).links = space.links := rfl

theorem lessOne_eq_zero_iff {num : Nat} (bound : num < 2 ^ 32) : lessOne num = 0 ↔ num = 1 := by
  unfold lessOne
  omega

theorem lessOne_succ {num : Nat} (bound : num < 2 ^ 32) : (lessOne num + 1) % 2 ^ 32 = num := by
  unfold lessOne
  omega

theorem lessOne_lt (num : Nat) : lessOne num < 2 ^ 32 :=
  Nat.mod_lt _ (by decide)

omit [Fintype π] in
theorem deleteMm_eq (used : spaces.mm pcb = some m) (there : spaces.mms m = some space)
    (bound : space.list.num < 2 ^ 32) (deleted : spaces.deleteMm pcb = some after) :
    after =
      { mms := Function.update spaces.mms m (if space.list.num = 1 then none
          else some (setNum space (lessOne space.list.num)))
        mm := Function.update spaces.mm pcb none } := by
  simp only [AddressSpaces.deleteMm, used, there, Option.map_some, lessOne_eq_zero_iff bound]
    at deleted
  exact (Option.some.inj deleted).symm

theorem Sound.deleteMm (sound : spaces.Sound) (settled : spaces.ExitsSettled (.deleteMm pcb))
    (deleted : spaces.deleteMm pcb = some after) : after.Sound := by
  cases used : spaces.mm pcb with
  | none =>
      simp only [AddressSpaces.deleteMm, used] at deleted
      cases deleted
      exact sound
  | some m =>
      obtain ⟨space, there⟩ := sound.alive pcb m used
      have num := sound.num_eq_users there (settled m space used there)
      have bound := sound.bound m space there
      have counted := sound.counted m space there
      have less := lessOne_succ bound
      have left := @users_leave _ _ _ _ _ spaces m m pcb spaces.mms used
      rw [if_pos rfl] at left
      rw [deleteMm_eq used there bound deleted]
      apply sound.change
      · intro p other different
        by_cases same : p = pcb
        · subst same
          simp [used, Ne.symm different]
        · simp [same]
      · intro p still
        have other : p ≠ pcb := by
          intro same
          simp [same] at still
        have user : spaces.mm p = some m := by simpa [other] using still
        have several : space.list.num ≠ 1 := by
          intro one
          exact other ((users_eq_one_iff used).mp (num.symm.trans one) p user)
        simp [several]
      · intro next same
        split at same
        · cases same
        · rw [← Option.some.inj same, setNum_num]
          exact lessOne_lt _
      · intro next same
        split at same
        · cases same
        · rw [← Option.some.inj same, setNum_num, setNum_copied, setNum_inherited, setNum_links]
          generalize lessOne space.list.num = lessened at less
          omega

theorem Sound.step {op : SpaceOp μ π} (sound : spaces.Sound) (settled : spaces.ExitsSettled op)
    (moved : spaces.step op = some after) : after.Sound := by
  cases op with
  | createMm m =>
      simp only [AddressSpaces.step] at moved
      split at moved
      · next free => cases moved; exact sound.createMm free
      · contradiction
  | createVma m fields fuel =>
      obtain ⟨space, there, made⟩ := Option.bind_eq_some_iff.mp moved
      obtain ⟨result, called, rfl⟩ := Option.map_eq_some_iff.mp made
      exact sound.createVma there called
  | copyMm pcb isShare old new fuel =>
      simp only [AddressSpaces.step] at moved
      split at moved
      · next enabled => exact sound.copyMm enabled.1 enabled.2 moved
      · contradiction
  | deleteMm pcb => exact sound.deleteMm settled moved

theorem sound_of_reachable
    (reached : (machine μ π).ReachableWithin ExitsSettled spaces) : spaces.Sound := by
  apply @Machine.ReachableWithin.invariant _ _ _ _ Sound _ _ _ reached
  · intro state started
    cases started
    exact ⟨by simp, by simp, by simp⟩
  · intro before op after sound settled moved
    exact sound.step settled moved

/-- In every run in which the address space of each exiting process is settled,
`delete_mm` tears an `mm` down exactly at the exit of its last user; and when the
last user exits, it does so only if the `mm` is settled. -/
theorem last_user_tears_down (reached : (machine μ π).ReachableWithin ExitsSettled spaces)
    (used : spaces.mm pcb = some m) (deleted : spaces.step (.deleteMm pcb) = some after) :
    (spaces.ExitsSettled (.deleteMm pcb) →
      (after.mms m = none ↔ ∀ q, spaces.mm q = some m → q = pcb)) ∧
    ((∀ q, spaces.mm q = some m → q = pcb) → after.mms m = none →
      spaces.ExitsSettled (.deleteMm pcb)) := by
  have sound := sound_of_reachable reached
  obtain ⟨space, there⟩ := sound.alive pcb m used
  have bound := sound.bound m space there
  have torn : after.mms m = none ↔ space.list.num = 1 := by
    rw [deleteMm_eq used there bound deleted]
    by_cases one : space.list.num = 1
    · simp [one]
    · simp [one]
  rw [torn, ← users_eq_one_iff used]
  constructor
  · intro settled
    rw [sound.num_eq_users there (settled m space used there)]
  · intro last one other otherSpace same present
    rw [used] at same
    cases same
    rw [there] at present
    cases present
    have counted := sound.counted m space there
    have small : space.copied.toNat ≤ 1 := Bool.toNat_le _
    refine ⟨?_, by omega⟩
    omega

end Counting

def noSpaces (μ : Type u) (π : Type v) : AddressSpaces μ π where
  mms := fun _ => none
  mm := fun _ => none

/-- One process shares a new `mm` without VMAs, and a second gets a copy of it. -/
def sharedAndCopied : List (SpaceOp Nat (Fin 2)) :=
  [.createMm 0, .copyMm 0 true 0 1 0, .copyMm 1 false 0 1 1]

/-- The copy goes with the second process, and the original stays. -/
theorem last_user_tears_down_copy :
    ∃ spaces after : AddressSpaces Nat (Fin 2),
      (machine Nat (Fin 2)).run (noSpaces Nat (Fin 2)) sharedAndCopied = some spaces ∧
        spaces.mm 0 = some 0 ∧ spaces.mm 1 = some 1 ∧
        spaces.step (.deleteMm 1) = some after ∧ after.mms 1 = none := by
  have runs : ((machine Nat (Fin 2)).run (noSpaces Nat (Fin 2)) sharedAndCopied).any (fun spaces =>
      decide (spaces.mm 0 = some 0) && decide (spaces.mm 1 = some 1) &&
        (spaces.mms 1).any (fun space =>
          decide ((space.inherited + space.links) % 2 ^ 32 = space.copied.toNat)) &&
        decide (spaces.users 1 < 2 ^ 32) && (spaces.step (.deleteMm 1)).isSome) = true := by
    decide +kernel
  obtain ⟨spaces, ran, facts⟩ := (Option.any_eq_true _ _).mp runs
  simp only [Bool.and_eq_true, decide_eq_true_eq, Option.any_eq_true,
    Option.isSome_iff_exists] at facts
  obtain ⟨⟨⟨⟨first, second⟩, space, there, balance⟩, few⟩, after, deleted⟩ := facts
  have reached : (machine Nat (Fin 2)).ReachableWithin ExitsSettled spaces := by
    apply Machine.ReachableWithin.run (.start rfl) _ ran
    intro op member state
    simp only [sharedAndCopied, List.mem_cons, List.not_mem_nil, or_false] at member
    obtain rfl | rfl | rfl := member <;> trivial
  have settled : spaces.ExitsSettled (.deleteMm 1) := by
    intro m other used present
    rw [second] at used
    cases used
    rw [there] at present
    cases present
    exact ⟨balance, few⟩
  refine ⟨spaces, after, ran, first, second, deleted, ?_⟩
  apply ((last_user_tears_down reached second deleted).1 settled).mpr
  intro q used
  obtain rfl | rfl : q = 0 ∨ q = 1 := by omega
  · rw [first] at used
    cases used
  · rfl

/-- The kernel's own `mm` has the VMA of `test_swap`; `sys_execve` copies it, adds the
page of the program, and the program exits. -/
def executed : List (SpaceOp Nat (Fin 1)) :=
  [.createMm 0, .createVma 0 { vmmStart := 0xf00000, vmmEnd := 0xf04000, flags := 7 } 1,
    .copyMm 0 false 0 1 2,
    .createVma 1 { vmmStart := 0xc0800000, vmmEnd := 0xc0801000, flags := 7 } 2]

theorem executed_program_leaks :
    ¬ ∀ (spaces after : AddressSpaces Nat (Fin 1)) (pcb : Fin 1) (m : Nat),
      (machine Nat (Fin 1)).Reachable spaces → spaces.mm pcb = some m →
      spaces.step (.deleteMm pcb) = some after →
      (after.mms m = none ↔ ∀ q, spaces.mm q = some m → q = pcb) := by
  intro claimed
  have runs : ((machine Nat (Fin 1)).run (noSpaces Nat (Fin 1)) executed).any (fun spaces =>
      decide (spaces.mm 0 = some 1) &&
        (spaces.step (.deleteMm 0)).any fun after => (after.mms 1).isSome) = true := by
    decide +kernel
  obtain ⟨spaces, ran, facts⟩ := (Option.any_eq_true _ _).mp runs
  obtain ⟨used, exits⟩ := Bool.and_eq_true_iff.mp facts
  obtain ⟨after, deleted, remains⟩ := (Option.any_eq_true _ _).mp exits
  have torn := (claimed spaces after 0 1 (.run (.start rfl) ran) (of_decide_eq_true used)
    deleted).mpr (fun q _ => Subsingleton.elim q 0)
  simp [torn] at remains

end AddressSpaces

end WindOs.Mm
