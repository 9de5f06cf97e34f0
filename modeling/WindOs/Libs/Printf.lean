import WindOs.Libs.Stdio

namespace WindOs.Libs

open Data

/-! # printf of stdio.c

The format is read through a pointer that moves on by one for a plain character and
by two for a conversion, whatever stands there.
-/

/-- `k` is `ptr - fmt`, `ap` counts the arguments taken, and `reads` are the distances
from `fmt` at which the format was read, latest first. -/
structure Printing where
  k : Nat
  ap : Nat
  out : List CChar
  reads : List Nat

/-- What does not change during a call: the memory, the format, the words on the stack
behind `fmt`, and what is in the buffer of `put_int` before it is written. -/
structure Call where
  memory : Memory
  fmt : BitVec 32
  args : Nat → BitVec 32
  buf : Nat → Cells CChar

/-- The characters from an address on. -/
def Memory.charsFrom (memory : Memory) (ptr : BitVec 32) : Chars := fun k => memory (ptr + BitVec.ofNat 32 k)

namespace Call

variable (call : Call)

def format : Chars := call.memory.charsFrom call.fmt

/-- What is printed for the character behind a `%`, and the arguments taken then. -/
def convert (fuel : Nat) (c : CChar) (ap : Nat) : Option (List CChar × Nat) :=
  if c = 99#8 then some ([(call.args ap).setWidth 8], ap + 1)
  else if c = 115#8 then
    (putRawString fuel (call.memory.charsFrom (call.args ap))).map fun text => (text, ap + 1)
  else if c = 100#8 then (putInt fuel (call.buf ap) (call.args ap).toNat 10).map fun text => (text.1, ap + 1)
  else if c = 120#8 then (putInt fuel (call.buf ap) (call.args ap).toNat 16).map fun text => (text.1, ap + 1)
  else if c = 111#8 then (putInt fuel (call.buf ap) (call.args ap).toNat 8).map fun text => (text.1, ap + 1)
  else some ([], ap)

def printfRound (fuel : Nat) (state : Printing) : Printing ⊕ Option Printing :=
  let c := call.format state.k
  let state := { state with reads := state.k :: state.reads }
  if c = 0#8 then .inr (some state)
  else if c ≠ 37#8 then .inl { state with k := state.k + 1, out := state.out ++ [c] }
  else
    let state := { state with k := state.k + 1, reads := (state.k + 1) :: state.reads }
    match call.convert fuel (call.format state.k) state.ap with
    | some (text, ap) => .inl { state with k := state.k + 1, ap, out := state.out ++ text }
    | none => .inr none

/-- `none` says that a loop did not end within `fuel` rounds. -/
def printf (fuel : Nat) : Option Printing :=
  (loop (call.printfRound fuel) fuel { k := 0, ap := 0, out := [], reads := [] }).join

end Call

/-- The string at an address, up to the next NUL. -/
def Memory.stringAt (memory : Memory) (ptr : BitVec 32) : List CChar :=
  ((List.range (2 ^ 32)).map (memory.charsFrom ptr)).takeWhile (· ≠ 0#8)

/-- The prefix of a base and the digits of a number. -/
def numeral (base num : Nat) : List CChar :=
  basePrefix base ++ (lowDigits base num).reverse.map digitChar

def Recognised (c : CChar) : Prop :=
  c = 99#8 ∨ c = 115#8 ∨ c = 100#8 ∨ c = 120#8 ∨ c = 111#8

instance (c : CChar) : Decidable (Recognised c) := inferInstanceAs (Decidable (_ ∨ _))

/-- The text of a conversion and its argument; nothing when it is not recognised. -/
def converted (memory : Memory) (c : CChar) (arg : BitVec 32) : List CChar :=
  if c = 99#8 then [arg.setWidth 8]
  else if c = 115#8 then memory.stringAt arg
  else if c = 100#8 then numeral 10 arg.toNat
  else if c = 120#8 then numeral 16 arg.toNat
  else if c = 111#8 then numeral 8 arg.toNat
  else []

/-- The literal characters and the conversions of a format in their order; `ap` is the
number of the first argument. -/
def rendered (memory : Memory) (args : Nat → BitVec 32) : Nat → List CChar → List CChar
  | _, [] => []
  | _, [c] => if c = 37#8 then [] else [c]
  | ap, c :: d :: rest =>
      if c = 37#8 then
        converted memory d (args ap) ++
          rendered memory args (if Recognised d then ap + 1 else ap) rest
      else c :: rendered memory args ap (d :: rest)

/-- The call returns, has read nothing behind the NUL of its format, and has printed
what it should. -/
def StaysInside (call : Call) (s : List CChar) : Prop :=
  ∃ fuel done, call.printf fuel = some done ∧ (∀ k ∈ done.reads, k ≤ s.length) ∧
    done.out = rendered call.memory call.args 0 s

/-- How many `%` a format ends in. -/
def trailingPercents (s : List CChar) : Nat :=
  (s.reverse.takeWhile (· = 37#8)).length

variable {memory : Memory} {ptr : BitVec 32} {s : List CChar} {call : Call} {fuel k ap : Nat}
  {c d : CChar} {rest : List CChar}

theorem Memory.charsFrom_succ : memory.charsFrom ptr (k + 1) = memory.charsFrom (ptr + 1#32) k := by
  have moved : ptr + BitVec.ofNat 32 (k + 1) = ptr + 1#32 + BitVec.ofNat 32 k := by
    rw [BitVec.add_assoc]
    congr 1
    apply BitVec.eq_of_toNat_eq
    simp [Nat.add_comm]
  simp only [Memory.charsFrom, moved]

theorem Memory.Holds.spells (holds : memory.Holds ptr s) : Spells (memory.charsFrom ptr) s := by
  refine ⟨?_, holds.nonzero⟩
  induction s generalizing ptr with
  | nil =>
      intro k upto
      obtain rfl : k = 0 := by simpa using upto
      have ended : memory ptr = 0#8 := holds
      simpa [Memory.charsFrom] using ended
  | cons c s ih =>
      intro k upto
      cases k with
      | zero => simpa [Memory.charsFrom] using holds.1
      | succ k =>
          rw [Memory.charsFrom_succ, ih holds.2.2 k (by simpa using upto)]
          simp

/-- The characters up to the first NUL are a string. -/
theorem takeWhile_spells {chars : Chars} {size : Nat} (ended : ∃ k < size, chars k = 0#8) :
    Spells chars (((List.range size).map chars).takeWhile (· ≠ 0#8)) ∧
      (((List.range size).map chars).takeWhile (· ≠ 0#8)).length < size := by
  have somewhere : ∃ k, chars k = 0#8 := ended.imp fun k found => found.2
  obtain ⟨nul, zero, least⟩ : ∃ nul, chars nul = 0#8 ∧ ∀ k < nul, chars k ≠ 0#8 :=
    ⟨Nat.find somewhere, Nat.find_spec somewhere, fun k => Nat.find_min somewhere⟩
  have inside : nul < size := by
    obtain ⟨k, small, found⟩ := ended
    by_contra beyond
    exact least k (by omega) found
  obtain ⟨more, rfl⟩ := Nat.exists_eq_add_of_lt inside
  have taken : ((List.range (nul + more + 1)).map chars).takeWhile (· ≠ 0#8) =
      (List.range nul).map chars := by
    have plain : ∀ c ∈ (List.range nul).map chars, decide (c ≠ 0#8) = true := by
      intro c member
      obtain ⟨k, small, rfl⟩ := List.mem_map.mp member
      simpa using least k (List.mem_range.mp small)
    rw [Nat.add_assoc, List.range_add, List.map_append, List.takeWhile_append_of_pos plain,
      List.range_succ_eq_map]
    simp [zero]
  rw [taken]
  refine ⟨⟨?_, ?_⟩, by simp⟩
  · intro k upto
    simp only [List.length_map, List.length_range] at upto
    by_cases last : k = nul
    · simp [last, zero]
    · have before : k < nul := by omega
      simp [List.getD_eq_getElem?_getD, before]
  · intro c member
    obtain ⟨k, small, rfl⟩ := List.mem_map.mp member
    exact least k (List.mem_range.mp small)

/-- Memory with a NUL in it has a string everywhere, since pointers wrap around. -/
theorem Memory.stringAt_spells {nul : BitVec 32} (ended : memory nul = 0#8) (ptr : BitVec 32) :
    Spells (memory.charsFrom ptr) (memory.stringAt ptr) ∧ (memory.stringAt ptr).length < 2 ^ 32 := by
  apply takeWhile_spells
  refine ⟨(nul - ptr).toNat, (nul - ptr).isLt, ?_⟩
  have reached : ptr + BitVec.ofNat 32 (nul - ptr).toNat = nul := by
    rw [BitVec.ofNat_toNat, BitVec.setWidth_eq, BitVec.add_comm, BitVec.sub_add_cancel]
  rw [Memory.charsFrom, reached, ended]

theorem convert_eq {nul : BitVec 32} (ended : call.memory nul = 0#8) (enough : 2 ^ 32 < fuel) :
    call.convert fuel c ap =
      some (converted call.memory c (call.args ap), if Recognised c then ap + 1 else ap) := by
  have string : putRawString fuel (call.memory.charsFrom (call.args ap)) =
      some (call.memory.stringAt (call.args ap)) := by
    obtain ⟨spells, short⟩ := Memory.stringAt_spells ended (call.args ap)
    exact putRawString_eq spells (by omega)
  have number : ∀ base, 1 < base → base ≤ 16 →
      (putInt fuel (call.buf ap) (call.args ap).toNat base).map Prod.fst =
        some (numeral base (call.args ap).toNat) := by
    intro base big table
    have length := @lowDigits_length base _ big (call.args ap).isLt
    exact putInt_eq big table (by omega)
  have printed : ∀ base, 1 < base → base ≤ 16 →
      (putInt fuel (call.buf ap) (call.args ap).toNat base).map (fun text => (text.1, ap + 1)) =
        some (numeral base (call.args ap).toNat, ap + 1) := by
    intro base big table
    have split := congrArg (Option.map fun text => (text, ap + 1)) (number base big table)
    simpa [Option.map_map, Function.comp_def] using split
  unfold Call.convert converted Recognised
  by_cases char : c = 99#8
  · simp [char]
  by_cases text : c = 115#8
  · simp [text, string]
  by_cases decimal : c = 100#8
  · simp [decimal, printed 10]
  by_cases hexadecimal : c = 120#8
  · simp [hexadecimal, printed 16]
  by_cases octal : c = 111#8
  · simp [octal, printed 8]
  simp [char, text, decimal, hexadecimal, octal]

variable {state next done : Printing}

theorem printfRound_end (ended : call.format state.k = 0#8) :
    call.printfRound fuel state = .inr (some { state with reads := state.k :: state.reads }) := by
  simp only [Call.printfRound, ended, if_true]

theorem printfRound_plain (here : call.format state.k = c) (nonzero : c ≠ 0#8) (plain : c ≠ 37#8) :
    call.printfRound fuel state =
      .inl { state with k := state.k + 1, out := state.out ++ [c], reads := state.k :: state.reads } := by
  simp only [Call.printfRound, here, if_neg nonzero, if_pos plain]

theorem printfRound_percent (here : call.format state.k = 37#8) :
    call.printfRound fuel state =
      match call.convert fuel (call.format (state.k + 1)) state.ap with
      | some (text, ap) => .inl
          { k := state.k + 2
            ap
            out := state.out ++ text
            reads := (state.k + 1) :: state.k :: state.reads }
      | none => .inr none := by
  have nonzero : (37#8 : CChar) ≠ 0#8 := by decide
  simp only [Call.printfRound, here, if_neg nonzero, ne_eq, not_true_eq_false, if_false]

/-- A round, the last one too, reads at `ptr` and forgets nothing that was read. -/
theorem printfRound_reads (round : (call.printfRound fuel state).elim some id = some next) :
    ∀ r ∈ state.k :: state.reads, r ∈ next.reads := by
  by_cases ended : call.format state.k = 0#8
  · rw [printfRound_end ended] at round
    cases round
    exact fun r member => member
  by_cases percent : call.format state.k = 37#8
  · rw [printfRound_percent percent] at round
    split at round
    · cases round
      intro r member
      exact List.mem_cons_of_mem _ member
    · cases round
  · rw [printfRound_plain rfl ended percent] at round
    cases round
    exact fun r member => member

theorem reads_kept {rounds r : Nat}
    (ended : loop (call.printfRound fuel) rounds state = some (some done)) (read : r ∈ state.reads) :
    r ∈ done.reads := by
  refine @loop_invariant _ _ _ _ _ _ (fun state => r ∈ state.reads)
    (fun result => ∀ done, result = some done → r ∈ done.reads) ?_ ?_ ended read done rfl
  · intro state next member round
    exact printfRound_reads (by rw [round]; rfl) r (List.mem_cons_of_mem _ member)
  · intro state result member round done same
    exact printfRound_reads (by rw [round]; exact same) r (List.mem_cons_of_mem _ member)

/-- Where the pointer stands, the format is read. -/
theorem reads_here {rounds : Nat}
    (ended : loop (call.printfRound fuel) rounds state = some (some done)) : state.k ∈ done.reads := by
  cases rounds with
  | zero => cases ended
  | succ rounds =>
      cases round : call.printfRound fuel state with
      | inl next =>
          rw [loop_next round] at ended
          exact reads_kept ended (printfRound_reads (by rw [round]; rfl) _ (by simp))
      | inr result =>
          rw [loop_exit round] at ended
          cases ended
          exact printfRound_reads (by rw [round]; rfl) _ (by simp)

/-- The scan of a format ends in a `%` with nothing behind it. -/
def dangling : List CChar → Bool
  | [] => false
  | [c] => c = 37#8
  | c :: d :: rest => if c = 37#8 then dangling rest else dangling (d :: rest)

theorem dangling_plain (plain : c ≠ 37#8) : dangling (c :: rest) = dangling rest := by
  cases rest <;> simp [dangling, plain]

theorem rendered_plain {args : Nat → BitVec 32} (plain : c ≠ 37#8) :
    rendered memory args ap (c :: rest) = c :: rendered memory args ap rest := by
  cases rest <;> simp [rendered, plain]

/-- What stands at the pointer, and what is left behind it. -/
theorem format_cons (spells : Spells call.format s) (left : s.drop k = c :: rest) :
    call.format k = c ∧ c ≠ 0#8 ∧ s.drop (k + 1) = rest ∧ k < s.length := by
  have inside : k < s.length := by
    by_contra beyond
    rw [List.drop_of_length_le (by omega)] at left
    cases left
  rw [List.drop_eq_getElem_cons inside] at left
  obtain ⟨rfl, behind⟩ := List.cons.inj left
  refine ⟨?_, spells.2 _ (List.getElem_mem inside), behind, inside⟩
  rw [spells.1 k (by omega), List.getD_eq_getElem?_getD, List.getElem?_eq_getElem inside]
  rfl

theorem format_nil (spells : Spells call.format s) (upto : k ≤ s.length) (left : s.drop k = []) :
    call.format k = 0#8 ∧ k = s.length := by
  have last : k = s.length := by
    have beyond := List.drop_eq_nil_iff.mp left
    omega
  refine ⟨?_, last⟩
  rw [spells.1 k upto, last]
  simp

/-- A format that does not end in a lone `%` is printed up to its NUL. -/
theorem printf_inside {nul : BitVec 32} {rounds : Nat} (spells : Spells call.format s)
    (ended : call.memory nul = 0#8) (enough : 2 ^ 32 < fuel) (upto : state.k ≤ s.length)
    (closed : dangling (s.drop state.k) = false) (many : s.length - state.k < rounds)
    (inside : ∀ r ∈ state.reads, r ≤ s.length) :
    ∃ done, loop (call.printfRound fuel) rounds state = some (some done) ∧
      (∀ r ∈ done.reads, r ≤ s.length) ∧
      done.out = state.out ++ rendered call.memory call.args state.ap (s.drop state.k) := by
  induction rounds generalizing state with
  | zero => omega
  | succ rounds ih =>
      have reading : ∀ r ∈ state.k :: state.reads, r ≤ s.length :=
        List.forall_mem_cons.mpr ⟨upto, inside⟩
      cases left : s.drop state.k with
      | nil =>
          obtain ⟨atNul, last⟩ := format_nil spells upto left
          refine ⟨_, loop_exit (printfRound_end atNul), reading, ?_⟩
          simp [rendered]
      | cons c rest =>
          obtain ⟨here, nonzero, behind, before⟩ := format_cons spells left
          rw [left] at closed
          by_cases percent : c = 37#8
          · subst percent
            cases rest with
            | nil => simp [dangling] at closed
            | cons d rest =>
                obtain ⟨there, -, further, next⟩ := format_cons spells behind
                have round := @printfRound_percent call fuel state here
                rw [there, convert_eq ended enough] at round
                rw [loop_next round]
                have closedBehind : dangling (s.drop (state.k + 2)) = false := by
                  rw [further]
                  simpa [dangling] using closed
                have readingOn : ∀ r ∈ (state.k + 1) :: state.k :: state.reads, r ≤ s.length :=
                  List.forall_mem_cons.mpr ⟨before, reading⟩
                obtain ⟨done, run, within, printed⟩ := @ih
                  { k := state.k + 2
                    ap := if Recognised d then state.ap + 1 else state.ap
                    out := state.out ++ converted call.memory d (call.args state.ap)
                    reads := (state.k + 1) :: state.k :: state.reads }
                  (by simp only; omega) closedBehind (by simp only; omega) readingOn
                refine ⟨done, run, within, ?_⟩
                rw [printed]
                simp only [further]
                simp [rendered]
          · have round := @printfRound_plain call fuel c state here nonzero percent
            rw [loop_next round]
            rw [dangling_plain percent] at closed
            obtain ⟨done, run, within, printed⟩ := @ih
              { state with k := state.k + 1, out := state.out ++ [c], reads := state.k :: state.reads }
              (by simp only; omega) (by simp only [behind]; exact closed) (by simp only; omega) reading
            refine ⟨done, run, within, ?_⟩
            rw [printed]
            simp only [behind]
            rw [rendered_plain percent]
            simp

/-- A format that ends in a lone `%` is read behind its NUL. -/
theorem printf_outside {rounds : Nat} (spells : Spells call.format s) (upto : state.k ≤ s.length)
    (unclosed : dangling (s.drop state.k) = true)
    (ended : loop (call.printfRound fuel) rounds state = some (some done)) :
    s.length + 1 ∈ done.reads := by
  induction rounds generalizing state with
  | zero => cases ended
  | succ rounds ih =>
      cases left : s.drop state.k with
      | nil =>
          rw [left] at unclosed
          cases unclosed
      | cons c rest =>
          obtain ⟨here, nonzero, behind, before⟩ := format_cons spells left
          rw [left] at unclosed
          by_cases percent : c = 37#8
          · subst percent
            have round := @printfRound_percent call fuel state here
            cases converts : call.convert fuel (call.format (state.k + 1)) state.ap with
            | none =>
                rw [converts] at round
                rw [loop_exit round] at ended
                cases ended
            | some text =>
                obtain ⟨text, ap⟩ := text
                rw [converts] at round
                rw [loop_next round] at ended
                cases rest with
                | nil =>
                    have last : state.k + 2 = s.length + 1 := by
                      have beyond := List.drop_eq_nil_iff.mp behind
                      omega
                    have read := reads_here ended
                    rwa [last] at read
                | cons d rest =>
                    obtain ⟨-, -, further, next⟩ := format_cons spells behind
                    refine ih ?_ ?_ ended
                    · simp only
                      omega
                    · simp only [further]
                      simpa [dangling] using unclosed
          · have round := @printfRound_plain call fuel c state here nonzero percent
            rw [loop_next round] at ended
            rw [dangling_plain percent] at unclosed
            refine ih ?_ ?_ ended
            · simp only
              omega
            · simp only [behind]
              exact unclosed

theorem trailingPercents_cons (c : CChar) (rest : List CChar) : trailingPercents (c :: rest) =
    if trailingPercents rest = rest.length then
      if c = 37#8 then rest.length + 1 else rest.length
    else trailingPercents rest := by
  by_cases all : trailingPercents rest = rest.length
  · rw [if_pos all]
    simp only [trailingPercents] at all
    simp only [trailingPercents, List.reverse_cons, List.takeWhile_append, List.length_reverse, all]
    by_cases percent : c = 37#8
    · simp [percent]
    · simp [percent]
  · rw [if_neg all]
    simp only [trailingPercents] at all
    simp only [trailingPercents, List.reverse_cons, List.takeWhile_append, List.length_reverse,
      if_neg all]

theorem trailingPercents_le (s : List CChar) : trailingPercents s ≤ s.length := by
  have prefixed := (List.takeWhile_sublist (l := s.reverse) (· = 37#8)).length_le
  simpa [trailingPercents] using prefixed

/-- Two `%` in a row are scanned together. -/
theorem dangling_iff (s : List CChar) : dangling s = true ↔ trailingPercents s % 2 = 1 := by
  induction s using dangling.induct with
  | case1 => simp [dangling, trailingPercents]
  | case2 c =>
      by_cases percent : c = 37#8
      · simp [dangling, trailingPercents, percent]
      · simp [dangling, trailingPercents, percent]
  | case3 d rest ih =>
      have short := trailingPercents_le rest
      rw [dangling, if_pos rfl, ih, trailingPercents_cons, trailingPercents_cons, List.length_cons]
      by_cases all : trailingPercents rest = rest.length
      · by_cases percent : d = 37#8
        · simp only [all, percent, if_true]
          omega
        · have broken : rest.length ≠ rest.length + 1 := by omega
          simp only [all, percent, if_true, if_false, broken]
      · have broken : trailingPercents rest ≠ rest.length + 1 := by omega
        simp only [all, if_false, broken]
  | case4 c d rest plain ih =>
      have length : (d :: rest).length = rest.length + 1 := rfl
      rw [dangling, if_neg plain, ih, trailingPercents_cons c]
      by_cases all : trailingPercents (d :: rest) = (d :: rest).length
      · rw [if_pos all, if_neg plain, all]
      · rw [if_neg all]

/-- `printf` stays inside its format exactly when that ends in an even number of `%`. -/
theorem printf_inside_iff (call : Call) (s : List CChar) (holds : call.memory.Holds call.fmt s) :
    StaysInside call s ↔ trailingPercents s % 2 = 0 := by
  have spells : Spells call.format s := holds.spells
  constructor
  · rintro ⟨fuel, done, printed, inside, -⟩
    by_contra odd
    have unclosed : dangling s = true := (dangling_iff s).mpr (by omega)
    have ended := Option.join_eq_some_iff.mp printed
    have read := @printf_outside s call fuel { k := 0, ap := 0, out := [], reads := [] } done fuel spells
      (Nat.zero_le _) unclosed ended
    have bound := inside _ read
    omega
  · intro even
    have closed : dangling s = false := by
      rw [Bool.eq_false_iff, Ne, dangling_iff]
      omega
    have nul : call.memory (call.fmt + BitVec.ofNat 32 s.length) = 0#8 := by
      have ended := spells.1 s.length le_rfl
      simpa [Call.format, Memory.charsFrom] using ended
    obtain ⟨done, run, inside, out⟩ := @printf_inside s call (s.length + 2 ^ 32 + 1)
      { k := 0, ap := 0, out := [], reads := [] } _ (s.length + 2 ^ 32 + 1) spells nul (by omega)
      (Nat.zero_le _) closed (by omega) (by simp)
    exact ⟨s.length + 2 ^ 32 + 1, done, Option.join_eq_some_iff.mpr run, inside, by simpa using out⟩

/-- A format at address 1, with the argument 7. -/
def callFromOne (s : List CChar) : Call where
  memory := fromOne s
  fmt := 1#32
  args := fun _ => 7#32
  buf := fun _ => { value := fun _ => 0#8, written := [] }

/-- "%d%%" -/
theorem printf_inside_iff_decimal :
    StaysInside (callFromOne [37#8, 100#8, 37#8, 37#8]) [37#8, 100#8, 37#8, 37#8] :=
  (printf_inside_iff _ _ (by simp [callFromOne, Memory.Holds, fromOne])).mpr (by decide)

/-- "%" -/
theorem lone_percent_read_over : ¬ StaysInside (callFromOne [37#8]) [37#8] := by
  rintro ⟨fuel, done, printed, inside, -⟩
  have spells : Spells (callFromOne [37#8]).format [37#8] :=
    Memory.Holds.spells (by simp [callFromOne, Memory.Holds, fromOne])
  have read := @printf_outside _ _ fuel { k := 0, ap := 0, out := [], reads := [] } done fuel spells
    (by decide) (by decide) (Option.join_eq_some_iff.mp printed)
  exact absurd (inside 2 read) (by decide)

end WindOs.Libs
