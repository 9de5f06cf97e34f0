import WindOs.Data.Runs

namespace WindOs.Data

/-! # Sizes that describe the maximal runs

`Headed` sizes promise a run where they are nonzero.  `Exact` sizes give the length
of every maximal run at its first number, and 0 everywhere else.
-/

structure Exact (size : Nat → Nat) (list : List Nat) : Prop where
  head : ∀ p ∈ list, (∀ q ∈ list, q + 1 ≠ p) →
    0 < size p ∧ (∀ i < size p, p + i ∈ list) ∧ p + size p ∉ list
  inner : ∀ p ∈ list, ∀ q ∈ list, q + 1 = p → size p = 0

/-- The same, except that a run also begins at `c`, whatever stands in front of it. -/
structure ExactCut (size : Nat → Nat) (list : List Nat) (c : Nat) : Prop where
  head : ∀ p ∈ list, (p = c ∨ ∀ q ∈ list, q + 1 ≠ p) →
    0 < size p ∧ (∀ i < size p, p + i ∈ list) ∧ (p + size p ∉ list ∨ p + size p = c)
  inner : ∀ p ∈ list, p ≠ c → ∀ q ∈ list, q + 1 = p → size p = 0
  cut : ∀ p ∈ list, p < c → p + size p ≤ c

variable {size : Nat → Nat} {list listed rest back front : List Nat} {p t n c : Nat}

/-- The first number of a sorted list begins a run. -/
theorem first_begins (sorted : (p :: back).Pairwise (· < ·)) : ∀ q ∈ p :: back, q + 1 ≠ p := by
  intro q member
  cases List.mem_cons.mp member with
  | inl same => omega
  | inr later =>
      have above := (List.pairwise_cons.mp sorted).1 q later
      omega

/-- The numbers behind a run, or behind a part of it, are the others of the list. -/
theorem behind_range (sorted : (List.range' p n ++ rest).Pairwise (· < ·)) (positive : 0 < n) {q : Nat} :
    q ∈ rest ↔ q ∈ List.range' p n ++ rest ∧ p + n ≤ q := by
  constructor
  · intro member
    refine ⟨List.mem_append_right _ member, ?_⟩
    have last : p + n - 1 ∈ List.range' p n := by
      rw [List.mem_range'_1]
      omega
    have above := (List.pairwise_append.mp sorted).2.2 _ last q member
    omega
  · rintro ⟨member, beyond⟩
    cases List.mem_append.mp member with
    | inl inRun =>
        rw [List.mem_range'_1] at inRun
        omega
    | inr inRest => exact inRest

/-- The list without its first run. -/
theorem Exact.drop_run (exact : Exact size (List.range' p n ++ rest))
    (sorted : (List.range' p n ++ rest).Pairwise (· < ·)) (positive : 0 < n)
    (whole : p + n ∉ List.range' p n ++ rest) : Exact size rest := by
  have behind := fun q => @behind_range rest p n sorted positive q
  constructor
  · intro q member alone
    obtain ⟨inList, beyond⟩ := (behind q).mp member
    obtain ⟨longer, run, ends⟩ := exact.head q inList (by
      intro r inside next
      refine alone r ((behind r).mpr ⟨inside, ?_⟩) next
      by_contra before
      have same : q = p + n := by omega
      exact whole (same ▸ inList))
    refine ⟨longer, ?_, fun inRest => ends ((behind _).mp inRest).1⟩
    intro i small
    exact (behind _).mpr ⟨run i small, by omega⟩
  · intro q member r inside next
    exact exact.inner q ((behind q).mp member).1 r ((behind r).mp inside).1 next

/-- The sizes add up to the length of the list. -/
theorem Exact.sum (exact : Exact size list) (headed : Headed size list)
    (sorted : list.Pairwise (· < ·)) : (list.map size).sum = list.length := by
  induction length : list.length using Nat.strongRecOn generalizing list with
  | ind m ih =>
      cases list with
      | nil => simpa using length
      | cons p back =>
          obtain ⟨positive, -, ends⟩ := exact.head p (by simp) (first_begins sorted)
          obtain ⟨rest, split, zero, -⟩ := headed.take_run (Nat.le_refl (size p)) positive
            (sorted.imp Nat.ne_of_lt)
          rw [split] at exact sorted ends headed
          have shorter : rest.length < m := by
            rw [← length, split, List.length_append, List.length_range']
            omega
          have total := ih rest.length shorter (exact.drop_run sorted positive ends)
            headed.of_append (List.pairwise_append.mp sorted).2.1 rfl
          have run : ((List.range' p (size p)).map size).sum = size p := by
            rw [← cons_range p positive, List.map_cons, List.sum_cons,
              List.map_congr_left zero]
            simp
          rw [split, List.map_append, List.sum_append, run, total, ← length, split]
          simp

/-- The first `n` of a longer run are taken off. -/
theorem Exact.take (exact : Exact size (List.range' p n ++ rest))
    (sorted : (List.range' p n ++ rest).Pairwise (· < ·)) (positive : 0 < n)
    (longer : n < size p) :
    Exact (Function.update size (p + n) (size p - n)) rest := by
  have behind := fun q => @behind_range rest p n sorted positive q
  have first : p ∈ List.range' p n ++ rest := by
    rw [List.mem_append, List.mem_range'_1]
    omega
  have begins : ∀ q ∈ List.range' p n ++ rest, q + 1 ≠ p := by
    rw [← cons_range p positive, List.cons_append] at sorted ⊢
    exact first_begins sorted
  obtain ⟨-, run, ends⟩ := exact.head p first begins
  constructor
  · intro q member alone
    obtain ⟨inList, beyond⟩ := (behind q).mp member
    by_cases here : q = p + n
    · subst here
      rw [Function.update_self]
      refine ⟨by omega, ?_, ?_⟩
      · intro i small
        refine (behind _).mpr ⟨?_, by omega⟩
        rw [Nat.add_assoc]
        exact run (n + i) (by omega)
      · intro inRest
        have same : p + n + (size p - n) = p + size p := by omega
        exact ends (same ▸ ((behind _).mp inRest).1)
    · rw [Function.update_of_ne here]
      obtain ⟨longer, inside, stops⟩ := exact.head q inList (by
        intro r inList next
        exact alone r ((behind r).mpr ⟨inList, by omega⟩) next)
      refine ⟨longer, ?_, fun inRest => stops ((behind _).mp inRest).1⟩
      intro i small
      exact (behind _).mpr ⟨inside i small, by omega⟩
  · intro q member r inside next
    obtain ⟨inList, beyond⟩ := (behind q).mp member
    obtain ⟨inList', beyond'⟩ := (behind r).mp inside
    rw [Function.update_of_ne (by omega)]
    exact exact.inner q inList r inList' next

/-- The sizes after a block of `n` numbers from `p` on has been given its size, and has
been joined to the run that begins at `t` if that is next. -/
def joinDown (size : Nat → Nat) (p n t : Nat) : Nat → Nat :=
  if p + n = t then
    Function.update (Function.update (Function.update size p n) p (n + size t)) t 0
  else Function.update size p n

theorem joinDown_other {q : Nat} (notP : q ≠ p) (notT : p + n = t → q ≠ t) :
    joinDown size p n t q = size q := by
  unfold joinDown
  split
  · rename_i meets
    simp [notP, notT meets]
  · simp [notP]

/-- A block that lies between the numbers below it and `t`, with what comes after. -/
structure Gap (list : List Nat) (p n t : Nat) : Prop where
  above : t ∈ list
  room : p + n ≤ t
  apart : ∀ q ∈ list, q < p ∨ t ≤ q

/-- No run from below reaches past the place of the block. -/
theorem Exact.short (exact : Exact size list) (place : Gap list p n t) (positive : 0 < n) {q : Nat}
    (member : q ∈ list) (below : q < p) : q + size q ≤ p := by
  by_cases alone : ∀ r ∈ list, r + 1 ≠ q
  · obtain ⟨-, run, -⟩ := exact.head q member alone
    by_contra beyond
    have crossed := run (p - q) (by omega)
    have same : q + (p - q) = p := by omega
    rw [same] at crossed
    have side := place.apart p crossed
    have room := place.room
    omega
  · push Not at alone
    obtain ⟨r, inside, next⟩ := alone
    have empty := exact.inner q member r inside next
    omega

theorem Exact.insert (exact : Exact size list) (place : Gap list p n t) (positive : 0 < n)
    (zero : ∀ q ∈ List.range' (p + 1) (n - 1), size q = 0)
    (members : ∀ q, q ∈ listed ↔ (p ≤ q ∧ q < p + n) ∨ q ∈ list) :
    ExactCut (joinDown size p n t) listed p := by
  have room := place.room
  have old : ∀ q, q ∈ list → q ∈ listed := fun q member => (members q).mpr (.inr member)
  constructor
  · intro q member begins
    by_cases here : q = p
    · subst here
      by_cases meets : q + n = t
      · obtain ⟨long, run, ends⟩ := exact.head t place.above (by
          intro r inList next
          have := place.apart r inList
          omega)
        have sized : joinDown size q n t q = n + size t := by
          have different : q ≠ t := by omega
          simp [joinDown, meets, different]
        rw [sized]
        refine ⟨by omega, ?_, .inl ?_⟩
        · intro i small
          rw [members]
          by_cases inBlock : i < n
          · exact .inl (by omega)
          · have same : q + i = t + (i - n) := by omega
            exact .inr (same ▸ run (i - n) (by omega))
        · rw [members]
          rintro (inBlock | inList)
          · omega
          · have same : q + (n + size t) = t + size t := by omega
            exact ends (same ▸ inList)
      · have sized : joinDown size q n t q = n := by simp [joinDown, meets]
        rw [sized]
        refine ⟨positive, fun i small => (members _).mpr (.inl (by omega)), .inl ?_⟩
        rw [members]
        rintro (inBlock | inList)
        · omega
        · have := place.apart _ inList
          omega
    · have alone := begins.resolve_left here
      cases (members q).mp member with
      | inl inBlock =>
          exact absurd (show q - 1 + 1 = q by omega)
            (alone (q - 1) ((members _).mpr (.inl (by omega))))
      | inr inList =>
          have notJoined : p + n = t → q ≠ t := by
            rintro meets rfl
            exact absurd (show p + n - 1 + 1 = q by omega)
              (alone (p + n - 1) ((members _).mpr (.inl (by omega))))
          obtain ⟨long, run, ends⟩ := exact.head q inList (fun r inside => alone r (old r inside))
          rw [joinDown_other here notJoined]
          refine ⟨long, fun i small => old _ (run i small), ?_⟩
          by_cases inside : q + size q ∈ listed
          · cases (members _).mp inside with
            | inl inBlock =>
                have side := place.apart q inList
                have reach := exact.short place positive inList (by omega)
                exact .inr (by omega)
            | inr inList => exact absurd inList ends
          · exact .inl inside
  · intro q member notP r before next
    cases (members q).mp member with
    | inl inBlock =>
        rw [joinDown_other notP (by omega)]
        apply zero
        rw [List.mem_range'_1]
        omega
    | inr inList =>
        have side := place.apart q inList
        by_cases joined : p + n = t ∧ q = t
        · obtain ⟨meets, rfl⟩ := joined
          simp [joinDown, meets]
        · rw [joinDown_other notP (fun meets same => joined ⟨meets, same⟩)]
          apply exact.inner q inList r _ next
          cases (members r).mp before with
          | inl inBlock => omega
          | inr inside => exact inside
  · intro q member below
    cases (members q).mp member with
    | inl inBlock => omega
    | inr inList =>
        rw [joinDown_other (by omega) (by omega)]
        exact exact.short place positive inList below

/-- The sizes after the run that begins at `c` has been joined to the number `u` before
it, if the size of `u` reaches that far. -/
def joinUp (size : Nat → Nat) (c : Nat) : Option Nat → Nat → Nat
  | none => size
  | some u =>
      if u + size u = c then
        Function.update (Function.update size u (size u + size c)) c 0
      else size

/-- A single number joined to the run behind it. -/
theorem ExactCut.joined (exact : ExactCut size list c) {u : Nat} (inList : u ∈ list)
    (adjacent : u + 1 = c) (begins : ∀ q ∈ list, q + 1 ≠ u) (long : 0 < size c)
    (run : ∀ i < size c, c + i ∈ list) (ends : c + size c ∉ list) :
    Exact (Function.update (Function.update size u (1 + size c)) c 0) list := by
  constructor
  · intro p inside alone
    have notC : p ≠ c := fun same => alone u inList (by omega)
    rw [Function.update_of_ne notC]
    by_cases here : p = u
    · subst here
      rw [Function.update_self]
      refine ⟨by omega, ?_, ?_⟩
      · intro i small
        cases i with
        | zero => exact inside
        | succ i =>
            have same : p + (i + 1) = c + i := by omega
            exact same ▸ run i (by omega)
      · have same : p + (1 + size c) = c + size c := by omega
        exact same ▸ ends
    · rw [Function.update_of_ne here]
      obtain ⟨longP, runP, endsP⟩ := exact.head p inside (.inr alone)
      refine ⟨longP, runP, endsP.resolve_right ?_⟩
      intro reaches
      exact begins _ (runP (size p - 2) (by omega)) (by omega)
  · intro p inside q before next
    by_cases isC : p = c
    · rw [isC, Function.update_self]
    · have notU : p ≠ u := fun same => begins q before (by omega)
      rw [Function.update_of_ne isC, Function.update_of_ne notU]
      exact exact.inner p inside isC q before next

theorem ExactCut.joinUp (exact : ExactCut size list c) (member : c ∈ list) {before : Option Nat}
    (none : before = none → ∀ q ∈ list, c ≤ q)
    (some : ∀ u, before = some u → u ∈ list ∧ u < c ∧ ∀ q ∈ list, q ≤ u ∨ c ≤ q)
    (short : ∀ q ∈ list, q + 1 = c → ∀ r ∈ list, r + 1 ≠ q) :
    Exact (joinUp size c before) list := by
  have uncut : (∀ q ∈ list, q + 1 ≠ c) → Exact size list := by
    intro alone
    constructor
    · intro p inList begins
      obtain ⟨long, run, ends⟩ := exact.head p inList (.inr begins)
      refine ⟨long, run, ends.resolve_right ?_⟩
      intro reaches
      exact alone _ (run (size p - 1) (by omega)) (by omega)
    · intro p inList q before next
      by_cases here : p = c
      · exact absurd (here ▸ next) (alone q before)
      · exact exact.inner p inList here q before next
  cases before with
  | none =>
      apply uncut
      intro q inList next
      have := none rfl q inList
      omega
  | some u =>
      obtain ⟨inList, below, between⟩ := some u rfl
      by_cases adjacent : u + 1 = c
      · have begins := short u inList adjacent
        obtain ⟨long, -, -⟩ := exact.head u inList (.inr begins)
        have reach := exact.cut u inList below
        have single : size u = 1 := by omega
        obtain ⟨longC, runC, endsC⟩ := exact.head c member (.inl rfl)
        rw [Data.joinUp, if_pos (by omega), single]
        exact exact.joined inList adjacent begins longC runC (endsC.resolve_right (by omega))
      · have apart : u + size u ≠ c := by
          intro reaches
          by_cases alone : ∀ q ∈ list, q + 1 ≠ u
          · obtain ⟨long, run, -⟩ := exact.head u inList (.inr alone)
            have last := run (size u - 1) (by omega)
            have := between _ last
            omega
          · push Not at alone
            obtain ⟨q, inside, next⟩ := alone
            have := exact.inner u inList (by omega) q inside next
            omega
        rw [Data.joinUp, if_neg apart]
        apply uncut
        intro q inside next
        have := between q inside
        omega

end WindOs.Data
