import Mathlib.Data.Nat.Digits.Lemmas
import WindOs.Data.Cells
import WindOs.Libs.CString

namespace WindOs.Libs

open Data

/-! # put_raw_string and put_int of stdio.c

All output goes through `show_char(black, white, c)`, and what a function prints is
the list of the characters that it passes there.
-/

/-- The characters behind a pointer, by their distance from it. -/
abbrev Chars := Nat → CChar

/-- A string constant. -/
def literal (s : List CChar) : Chars := fun k => s.getD k 0#8

/-- The characters are those of `s`, and a NUL. -/
def Spells (chars : Chars) (s : List CChar) : Prop :=
  (∀ k ≤ s.length, chars k = s.getD k 0#8) ∧ ∀ c ∈ s, c ≠ 0#8

def putRawStringRound (chars : Chars) : Nat × List CChar → (Nat × List CChar) ⊕ List CChar
  | (k, out) => if chars k ≠ 0#8 then .inl (k + 1, out ++ [chars k]) else .inr out

def putRawString (fuel : Nat) (chars : Chars) : Option (List CChar) :=
  loop (putRawStringRound chars) fuel (0, [])

/-- "0123456789abcdef" -/
def digitTable : List CChar :=
  [48#8, 49#8, 50#8, 51#8, 52#8, 53#8, 54#8, 55#8, 56#8, 57#8,
    97#8, 98#8, 99#8, 100#8, 101#8, 102#8]

def tableChar (bit : Nat) : CChar := digitTable.getD bit 0#8

/-- A round of the division; the state is `num`, `cnt` and `buf`. -/
def putIntRound (base : Nat) : Nat × Nat × Cells CChar → (Nat × Nat × Cells CChar) ⊕ (Nat × Cells CChar)
  | (num, cnt, buf) =>
      if num ≠ 0 then .inl (num / base, cnt + 1, buf.set cnt (tableChar (num % base)))
      else .inr (cnt, buf)

/-- The digits, the lowest one first. -/
def putIntDigits (fuel : Nat) (buf : Cells CChar) (num base : Nat) : Option (Nat × Cells CChar) :=
  let (cnt, buf) := if num = 0 then (1, buf.set 0 (tableChar 0)) else (0, buf)
  loop (putIntRound base) fuel (num, cnt, buf)

/-- The digits in their order and the NUL behind them. -/
def putIntReverse (cnt : Nat) (buf : Cells CChar) : Cells CChar :=
  let buf := (List.range ((cnt - 1) / 2 + 1)).foldl (fun buf i => buf.swap i (cnt - 1 - i)) buf
  buf.set cnt 0#8

/-- What is printed, and the local buffer as it is then. -/
def putInt (fuel : Nat) (buf : Cells CChar) (num base : Nat) : Option (List CChar × Cells CChar) := do
  let (cnt, buf) ← putIntDigits fuel buf num base
  let buf := putIntReverse cnt buf
  let hex ← if base = 16 then putRawString fuel (literal [48#8, 120#8]) else some []
  let octal ← if base = 8 then putRawString fuel (literal [48#8]) else some []
  let digits ← putRawString fuel buf.value
  some (hex ++ octal ++ digits, buf)

variable {chars : Chars} {s : List CChar} {fuel : Nat}

theorem putRawString_from {k : Nat} (spells : Spells chars s) (upto : k ≤ s.length)
    (enough : s.length - k < fuel) (out : List CChar) :
    loop (putRawStringRound chars) fuel (k, out) = some (out ++ s.drop k) := by
  induction fuel generalizing k out with
  | zero => omega
  | succ fuel ih =>
      by_cases inside : k < s.length
      · have here : chars k = s[k] := by simp [spells.1 k upto, inside]
        have nonzero : chars k ≠ 0#8 := here ▸ spells.2 _ (List.getElem_mem inside)
        have round : putRawStringRound chars (k, out) = .inl (k + 1, out ++ [chars k]) := if_pos nonzero
        rw [loop_next round, ih inside (by omega), here, List.drop_eq_getElem_cons inside]
        simp
      · obtain rfl : k = s.length := by omega
        have ended : chars s.length = 0#8 := by simp [spells.1 _ upto]
        apply loop_exit
        simp [putRawStringRound, ended]

theorem putRawString_eq (spells : Spells chars s) (enough : s.length < fuel) :
    putRawString fuel chars = some s := by
  simpa [putRawString] using putRawString_from spells (Nat.zero_le _) enough []

theorem literal_spells (nonzero : ∀ c ∈ s, c ≠ 0#8) : Spells (literal s) s :=
  ⟨fun _ _ => rfl, nonzero⟩

/-- The character of a digit. -/
def digitChar (d : Nat) : CChar :=
  if d < 10 then BitVec.ofNat 8 (48 + d) else BitVec.ofNat 8 (97 + (d - 10))

/-- What is printed before a numeral. -/
def basePrefix (base : Nat) : List CChar :=
  if base = 16 then [48#8, 120#8] else if base = 8 then [48#8] else []

theorem tableChar_eq {d : Nat} (small : d < 16) : tableChar d = digitChar d := by
  decide +revert

theorem digitChar_ne_zero {d : Nat} (small : d < 16) : digitChar d ≠ 0#8 := by
  decide +revert

theorem putIntRound_loop {base num cnt : Nat} {buf : Cells CChar} (big : 1 < base)
    (enough : (base.digits num).length < fuel) :
    loop (putIntRound base) fuel (num, cnt, buf) =
      some (cnt + (base.digits num).length, buf.setAll cnt ((base.digits num).map tableChar)) := by
  induction fuel generalizing num cnt buf with
  | zero => omega
  | succ fuel ih =>
      by_cases zero : num = 0
      · subst zero
        apply loop_exit
        simp [putIntRound, Cells.setAll]
      · have round : putIntRound base (num, cnt, buf) =
            .inl (num / base, cnt + 1, buf.set cnt (tableChar (num % base))) := if_pos zero
        have digits := Nat.digits_def' big (Nat.pos_of_ne_zero zero)
        rw [digits, List.length_cons] at enough
        rw [loop_next round, ih (by omega), digits]
        simp [Cells.setAll]
        omega

/-- The digits of a number, the lowest first; 0 has one digit. -/
def lowDigits (base num : Nat) : List Nat :=
  if num = 0 then [0] else base.digits num

variable {base num : Nat} {buf : Cells CChar}

theorem lowDigits_ne_nil : lowDigits base num ≠ [] := by
  unfold lowDigits
  split
  · simp
  · next nonzero => exact Nat.digits_ne_nil_iff_ne_zero.mpr nonzero

theorem lowDigits_lt (big : 1 < base) : ∀ d ∈ lowDigits base num, d < base := by
  unfold lowDigits
  split
  · intro d member
    have zero : d = 0 := by simpa using member
    omega
  · intro d member
    exact Nat.digits_lt_base big member

theorem ofDigits_lowDigits : Nat.ofDigits base (lowDigits base num) = num := by
  unfold lowDigits
  split
  · next zero => simp [zero]
  · exact Nat.ofDigits_digits base num

/-- A number of 32 bits has at most 32 digits in any base. -/
theorem lowDigits_length (big : 1 < base) (word : num < 2 ^ 32) :
    (lowDigits base num).length ≤ 32 := by
  unfold lowDigits
  split
  · simp
  · rw [Nat.digits_length_le_iff big]
    exact Nat.lt_of_lt_of_le word (Nat.pow_le_pow_left big 32)

theorem putIntDigits_eq (big : 1 < base) (enough : (lowDigits base num).length < fuel) :
    putIntDigits fuel buf num base =
      some ((lowDigits base num).length, buf.setAll 0 ((lowDigits base num).map tableChar)) := by
  by_cases zero : num = 0
  · subst zero
    have positive : 0 < fuel := by omega
    simp only [putIntDigits, if_true, lowDigits]
    rw [putIntRound_loop big (by simpa using positive)]
    simp [Cells.setAll]
  · simp only [lowDigits, if_neg zero] at enough ⊢
    simp only [putIntDigits, if_neg zero]
    rw [putIntRound_loop big enough]
    simp

/-- The swaps and the NUL turn the digits into a string, the highest digit first. -/
theorem putIntReverse_spells {digits : List Nat} (nonempty : digits ≠ []) (small : ∀ d ∈ digits, d < 16) :
    Spells (putIntReverse digits.length (buf.setAll 0 (digits.map tableChar))).value
      (digits.reverse.map digitChar) := by
  constructor
  · intro k upto
    simp only [List.length_map, List.length_reverse] at upto
    by_cases last : k = digits.length
    · subst last
      simp [putIntReverse]
    · have inside : k < digits.length := by omega
      have mirrored : digits.length - 1 - k < (digits.map tableChar).length := by
        simp only [List.length_map]
        omega
      have digit := @Cells.setAll_value _ buf 0 _ _ mirrored
      rw [Nat.zero_add, List.getElem_map] at digit
      have swapped := congrFun (Cells.foldl_reverse_value (List.length_pos_iff.mpr nonempty)
        (buf.setAll 0 (digits.map tableChar))) k
      simp only [if_pos inside, digit, tableChar_eq (small _ (List.getElem_mem _))] at swapped
      rw [putIntReverse, Cells.set_value_of_ne last, swapped]
      simp [List.getD_eq_getElem?_getD, inside]
  · intro c member
    obtain ⟨d, inside, rfl⟩ := List.mem_map.mp member
    exact digitChar_ne_zero (small d (List.mem_reverse.mp inside))

/-- The whole call, with the buffer that it leaves. -/
theorem putInt_run (big : 1 < base) (table : base ≤ 16) (enough : (lowDigits base num).length + 2 < fuel) :
    putInt fuel buf num base =
      some (basePrefix base ++ (lowDigits base num).reverse.map digitChar,
        putIntReverse (lowDigits base num).length
          (buf.setAll 0 ((lowDigits base num).map tableChar))) := by
  have small : ∀ d ∈ lowDigits base num, d < 16 := by
    intro d member
    have below := lowDigits_lt big d member
    omega
  have printed := @putRawString_eq _ _ fuel
    (@putIntReverse_spells buf _ (@lowDigits_ne_nil base num) small) (by simp; omega)
  have hex : putRawString fuel (literal [48#8, 120#8]) = some [48#8, 120#8] :=
    putRawString_eq (literal_spells (by decide)) (by simp only [List.length_cons, List.length_nil]; omega)
  have octal : putRawString fuel (literal [48#8]) = some [48#8] :=
    putRawString_eq (literal_spells (by decide)) (by simp only [List.length_cons, List.length_nil]; omega)
  have digits := @putIntDigits_eq fuel base num buf big (by omega)
  simp only [putInt, digits, Option.bind_eq_bind, Option.bind_some, printed, hex, octal]
  by_cases sixteen : base = 16
  · subst sixteen
    simp [basePrefix]
  · by_cases eight : base = 8
    · subst eight
      simp [basePrefix]
    · simp [basePrefix, sixteen, eight]

theorem putInt_eq (big : 1 < base) (table : base ≤ 16) (enough : (lowDigits base num).length + 2 < fuel) :
    (putInt fuel buf num base).map Prod.fst =
      some (basePrefix base ++ (lowDigits base num).reverse.map digitChar) := by
  rw [putInt_run big table enough]
  rfl

/-- `put_int` prints the prefix of the base and the numeral of the number: its digits
are below the base, read back they give the number, and the first is not 0 unless the
number is. -/
theorem put_int_numeral (buf : Cells CChar) (num base : Nat) (word : num < 2 ^ 32)
    (known : base = 8 ∨ base = 10 ∨ base = 16) :
    ∃ digits : List Nat,
      (∀ fuel, 34 < fuel → (putInt fuel buf num base).map Prod.fst =
        some (basePrefix base ++ digits.map digitChar)) ∧
      Nat.ofDigits base digits.reverse = num ∧ (∀ d ∈ digits, d < base) ∧ digits ≠ [] ∧
      (digits.head? = some 0 → num = 0 ∧ digits = [0]) := by
  have big : 1 < base := by omega
  have length := @lowDigits_length base num big word
  refine ⟨(lowDigits base num).reverse, ?_, ?_, ?_, ?_, ?_⟩
  · intro fuel enough
    exact putInt_eq big (by omega) (by omega)
  · rw [List.reverse_reverse, ofDigits_lowDigits]
  · intro d member
    exact lowDigits_lt big d (List.mem_reverse.mp member)
  · simpa using lowDigits_ne_nil
  · intro leading
    rw [List.head?_reverse] at leading
    by_cases zero : num = 0
    · exact ⟨zero, by simp [lowDigits, zero]⟩
    · have highest := Nat.getLast_digit_ne_zero base zero
      rw [lowDigits, if_neg zero, List.getLast?_eq_some_getLast (Nat.digits_ne_nil_iff_ne_zero.mpr zero)]
        at leading
      exact absurd (Option.some.inj leading) highest

/-- 255 in hexadecimal. -/
theorem put_int_numeral_hex : ∃ digits : List Nat,
    (∀ fuel, 34 < fuel → (putInt fuel { value := fun _ => 0#8, written := [] } 255 16).map Prod.fst =
      some (basePrefix 16 ++ digits.map digitChar)) ∧
    Nat.ofDigits 16 digits.reverse = 255 ∧ (∀ d ∈ digits, d < 16) ∧ digits ≠ [] ∧
    (digits.head? = some 0 → 255 = 0 ∧ digits = [0]) :=
  put_int_numeral _ 255 16 (by decide) (by decide)

/-- The NUL is the write with the largest index. -/
theorem putIntReverse_within_iff {cnt size : Nat} (nonempty : 0 < cnt) (within : buf.Within cnt) :
    (putIntReverse cnt buf).Within size ↔ cnt < size := by
  have swapped : ((List.range ((cnt - 1) / 2 + 1)).foldl
      (fun buf i => buf.swap i (cnt - 1 - i)) buf).Within cnt := by
    apply within.foldl
    intro i member cells before
    have half : i < (cnt - 1) / 2 + 1 := List.mem_range.mp member
    exact (before.set (by omega)).set (by omega)
  rw [putIntReverse, Cells.set_within_iff]
  constructor
  · intro both
    exact both.1
  · intro room
    exact ⟨room, swapped.mono (Nat.le_of_lt room)⟩

theorem lowDigits_length_lt_iff {size : Nat} (big : 1 < base) (positive : 0 < size) :
    (lowDigits base num).length < size + 1 ↔ num < base ^ size := by
  unfold lowDigits
  split
  · next zero =>
      have power : 0 < base ^ size := Nat.pow_pos (by omega)
      simp only [List.length_singleton, zero, power, iff_true]
      omega
  · rw [Nat.lt_succ_iff, Nat.digits_length_le_iff big]

/-- A buffer of `size + 1` bytes takes the numerals of `size` digits, in any base of the table. -/
theorem putInt_within_iff {size : Nat} (fresh : buf.written = []) (positive : 0 < size)
    (big : 1 < base) (table : base ≤ 16) (enough : (lowDigits base num).length + 2 < fuel) :
    (∃ out after, putInt fuel buf num base = some (out, after) ∧ after.Within (size + 1)) ↔
      num < base ^ size := by
  have empty : buf.Within (lowDigits base num).length := by
    intro i written
    rw [fresh] at written
    cases written
  have digits := @Cells.Within.setAll _ _ 0 _ ((lowDigits base num).map tableChar) empty
    (by simp)
  have nonempty := List.length_pos_iff.mpr (@lowDigits_ne_nil base num)
  rw [← lowDigits_length_lt_iff big positive, ← putIntReverse_within_iff nonempty digits]
  constructor
  · intro returned
    obtain ⟨out, after, result, within⟩ := returned
    rw [putInt_run big table enough] at result
    cases result
    exact within
  · intro within
    exact ⟨_, _, putInt_run big table enough, within⟩

/-- Whether `put_int` stays inside `char buf[11]`: it does not for an octal numeral from 2^30
on, which has eleven digits. -/
theorem put_int_buffer_iff (value : Chars) (num base : Nat) (word : num < 2 ^ 32)
    (known : base = 8 ∨ base = 10 ∨ base = 16) (fuel : Nat) (enough : 34 < fuel) :
    (∃ out after, putInt fuel { value, written := [] } num base = some (out, after) ∧
      after.Within 11) ↔ base ≠ 8 ∨ num < 2 ^ 30 := by
  have big : 1 < base := by omega
  have length := @lowDigits_length base num big word
  rw [@putInt_within_iff fuel base num { value, written := [] } 10 rfl (by decide) big (by omega)
    (by omega)]
  rcases known with rfl | rfl | rfl
  · omega
  · omega
  · omega

/-- The largest number in decimal fills the buffer. -/
theorem put_int_buffer_decimal : ∃ out after,
    putInt 35 { value := fun _ => 0#8, written := [] } 4294967295 10 = some (out, after) ∧
      after.Within 11 :=
  (put_int_buffer_iff _ 4294967295 10 (by decide) (by decide) 35 (by decide)).mpr
    (.inl (by decide))

/-- 2^30 in octal. -/
theorem put_int_buffer_octal : ∃ out after,
    putInt 35 { value := fun _ => 0#8, written := [] } 0x40000000 8 = some (out, after) ∧
      ¬ after.Within 11 := by
  have length := @lowDigits_length 8 0x40000000 (by decide) (by decide)
  have run := @putInt_run 35 8 0x40000000 { value := fun _ => 0#8, written := [] } (by decide)
    (by decide) (by omega)
  refine ⟨_, _, run, ?_⟩
  intro within
  have small := (@putInt_within_iff 35 8 0x40000000 { value := fun _ => 0#8, written := [] } 10 rfl
    (by decide) (by decide) (by decide) (by omega)).mp ⟨_, _, run, within⟩
  omega

end WindOs.Libs
