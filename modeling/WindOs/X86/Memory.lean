import WindOs.Data.Loop
import Mathlib.Logic.Function.Basic

namespace WindOs.X86

/-! # Byte memory

Addresses have 32 bits and wrap around, words are little-endian and need not be aligned.
A stack is a list of words that lies upwards from an address.
-/

abbrev Address : Type := BitVec 32

abbrev Word : Type := BitVec 32

/-- The bytes by their addresses. -/
def Memory : Type := Address → BitVec 8

/-- The `n` bytes from `a` and the `k` bytes from `b` have none in common. -/
def Apart (a : Address) (n : Nat) (b : Address) (k : Nat) : Prop :=
  n ≤ (b - a).toNat ∧ k ≤ (a - b).toNat

instance {a b : Address} {n k : Nat} : Decidable (Apart a n b k) :=
  inferInstanceAs (Decidable (_ ∧ _))

variable {a b : Address} {n k i : Nat}

/-- A range of addresses. -/
structure Region where
  base : Address
  size : Nat

namespace Region

def Contains (region : Region) (x : Address) : Prop := (x - region.base).toNat < region.size

instance {region : Region} {x : Address} : Decidable (region.Contains x) :=
  inferInstanceAs (Decidable (_ < _))

def Disjoint (region other : Region) : Prop := ∀ x, region.Contains x → ¬ other.Contains x

variable {region other : Region} {x : Address}

theorem Disjoint.symm (disjoint : region.Disjoint other) : other.Disjoint region :=
  fun x inside outside => disjoint x outside inside

/-- Parts of disjoint regions are apart. -/
theorem Disjoint.apart (disjoint : region.Disjoint other)
    (first : ∀ x, (x - a).toNat < n → region.Contains x)
    (second : ∀ x, (x - b).toNat < k → other.Contains x) (some : 0 < n) (many : 0 < k) :
    Apart a n b k := by
  constructor
  · refine Nat.le_of_not_lt fun inside => disjoint b (first b inside) (second b ?_)
    rw [BitVec.sub_self]
    exact many
  · refine Nat.le_of_not_lt fun inside => disjoint a (first a ?_) (second a inside)
    rw [BitVec.sub_self]
    exact some

end Region

namespace Memory

def load (memory : Memory) (a : Address) : Word :=
  memory (a + 3) ++ memory (a + 2) ++ memory (a + 1) ++ memory a

def store (memory : Memory) (a : Address) (word : Word) : Memory := fun x =>
  if (x - a).toNat < 4 then word.extractLsb' (8 * (x - a).toNat) 8 else memory x

variable {memory other : Memory} {word : Word} {words : List Word}

theorem load_congr (same : ∀ x, (x - a).toNat < 4 → other x = memory x) :
    other.load a = memory.load a := by
  have first := same a (by bv_omega)
  have second := same (a + 1) (by bv_omega)
  have third := same (a + 2) (by bv_omega)
  have fourth := same (a + 3) (by bv_omega)
  simp only [load, first, second, third, fourth]

theorem store_of_outside {x : Address} (outside : ¬ (x - a).toNat < 4) :
    memory.store a word x = memory x :=
  if_neg outside

theorem store_of_inside {x : Address} (inside : (x - a).toNat < 4) :
    memory.store a word x = other.store a word x := by
  rw [store, store, if_pos inside, if_pos inside]

@[simp] theorem load_store_self : (memory.store a word).load a = word := by
  have first : (a - a).toNat = 0 := by bv_omega
  have second : (a + 1 - a).toNat = 1 := by bv_omega
  have third : (a + 2 - a).toNat = 2 := by bv_omega
  have fourth : (a + 3 - a).toNat = 3 := by bv_omega
  refine BitVec.eq_of_getLsbD_eq fun i small => ?_
  simp only [load, store, first, second, third, fourth, Nat.reduceLT, if_true,
    BitVec.getLsbD_append, BitVec.getLsbD_extractLsb']
  grind

/-- To store what is there changes nothing. -/
theorem store_of_load (loaded : memory.load a = word) : memory.store a word = memory := by
  subst loaded
  funext x
  by_cases inside : (x - a).toNat < 4
  · have place : x = a ∨ x = a + 1 ∨ x = a + 2 ∨ x = a + 3 := by bv_omega
    have first : (a - a).toNat = 0 := by bv_omega
    have second : (a + 1 - a).toNat = 1 := by bv_omega
    have third : (a + 2 - a).toNat = 2 := by bv_omega
    have fourth : (a + 3 - a).toNat = 3 := by bv_omega
    obtain rfl | rfl | rfl | rfl := place
    · refine BitVec.eq_of_getLsbD_eq fun i small => ?_
      simp only [store, load, first, Nat.reduceLT, if_true, BitVec.getLsbD_append,
        BitVec.getLsbD_extractLsb']
      grind
    · refine BitVec.eq_of_getLsbD_eq fun i small => ?_
      simp only [store, load, second, Nat.reduceLT, if_true, BitVec.getLsbD_append,
        BitVec.getLsbD_extractLsb']
      grind
    · refine BitVec.eq_of_getLsbD_eq fun i small => ?_
      simp only [store, load, third, Nat.reduceLT, if_true, BitVec.getLsbD_append,
        BitVec.getLsbD_extractLsb']
      grind
    · refine BitVec.eq_of_getLsbD_eq fun i small => ?_
      simp only [store, load, fourth, Nat.reduceLT, if_true, BitVec.getLsbD_append,
        BitVec.getLsbD_extractLsb']
      grind
  · exact store_of_outside inside

theorem load_store_of_apart (apart : Apart a 4 b 4) : (memory.store b word).load a = memory.load a := by
  refine load_congr fun x inside => store_of_outside ?_
  obtain ⟨above, below⟩ := apart
  bv_omega

/-- The words of a list lie one after another from `a` on. -/
def Holds (memory : Memory) : Address → List Word → Prop
  | _, [] => True
  | a, word :: words => memory.load a = word ∧ memory.Holds (a + 4) words

theorem Holds.head (holds : memory.Holds a (word :: words)) : memory.load a = word := holds.1

theorem Holds.tail (holds : memory.Holds a (word :: words)) : memory.Holds (a + 4) words := holds.2

theorem Holds.left {others : List Word} (holds : memory.Holds a (words ++ others)) :
    memory.Holds a words := by
  induction words generalizing a with
  | nil => trivial
  | cons word words ih => exact ⟨holds.head, ih holds.tail⟩

theorem Holds.congr (holds : memory.Holds a words)
    (same : ∀ x, (x - a).toNat < 4 * words.length → other x = memory x)
    (short : 4 * words.length ≤ 2 ^ 32) : other.Holds a words := by
  induction words generalizing a with
  | nil => trivial
  | cons word words ih =>
      simp only [List.length_cons] at same short
      refine ⟨?_, ih holds.tail (fun x inside => same x (by bv_omega)) (by omega)⟩
      rw [load_congr fun x inside => same x (by omega)]
      exact holds.head

theorem Holds.store_of_apart (holds : memory.Holds a words)
    (apart : Apart a (4 * words.length) b 4) : (memory.store b word).Holds a words := by
  obtain ⟨above, below⟩ := apart
  have size : (b - a).toNat < 2 ^ 32 := (b - a).isLt
  refine holds.congr (fun x inside => store_of_outside ?_) (by omega)
  bv_omega

/-- A word is put below the others. -/
theorem Holds.push (holds : memory.Holds a words) (short : 4 * (words.length + 1) ≤ 2 ^ 32) :
    (memory.store (a - 4) word).Holds (a - 4) (word :: words) := by
  refine ⟨load_store_self, ?_⟩
  rw [BitVec.sub_add_cancel]
  refine holds.store_of_apart ⟨?_, ?_⟩ <;> bv_omega

theorem Holds.drop (holds : memory.Holds a words) (count : Nat) :
    memory.Holds (a + BitVec.ofNat 32 (4 * count)) (words.drop count) := by
  induction count generalizing a words with
  | zero => simpa using holds
  | succ count ih =>
      cases words with
      | nil => trivial
      | cons word words =>
          have rest := ih holds.tail
          have place : a + 4 + BitVec.ofNat 32 (4 * count) = a + BitVec.ofNat 32 (4 * (count + 1)) := by
            bv_omega
          rwa [place] at rest

theorem Holds.getElem (holds : memory.Holds a words) (inside : i < words.length) :
    memory.load (a + BitVec.ofNat 32 (4 * i)) = words[i] := by
  have rest := holds.drop i
  rw [List.drop_eq_getElem_cons inside] at rest
  exact rest.head

def storeAll (memory : Memory) : Address → List Word → Memory
  | _, [] => memory
  | a, word :: words => (memory.store a word).storeAll (a + 4) words

theorem storeAll_of_outside {x : Address} (outside : ¬ (x - a).toNat < 4 * words.length)
    (short : 4 * words.length ≤ 2 ^ 32) : memory.storeAll a words x = memory x := by
  induction words generalizing memory a with
  | nil => rfl
  | cons word words ih =>
      simp only [List.length_cons] at outside short
      rw [storeAll, ih (by bv_omega) (by omega)]
      exact store_of_outside (by omega)

theorem storeAll_holds (short : 4 * words.length ≤ 2 ^ 32) :
    (memory.storeAll a words).Holds a words := by
  induction words generalizing memory a with
  | nil => trivial
  | cons word words ih =>
      simp only [List.length_cons] at short
      refine ⟨?_, ih (by omega)⟩
      rw [storeAll, load_congr fun x inside => storeAll_of_outside (by bv_omega) (by omega)]
      exact load_store_self

theorem Holds.storeAll_of_apart {others : List Word} (holds : memory.Holds a words)
    (apart : Apart a (4 * words.length) b (4 * others.length))
    (short : 4 * others.length ≤ 2 ^ 32) : (memory.storeAll b others).Holds a words := by
  obtain ⟨above, below⟩ := apart
  have size : (b - a).toNat < 2 ^ 32 := (b - a).isLt
  refine holds.congr (fun x inside => storeAll_of_outside ?_ short) (by omega)
  bv_omega

def pushAll (memory : Memory) : Address → List Word → Memory
  | _, [] => memory
  | esp, word :: words => (memory.store (esp - 4) word).pushAll (esp - 4) words

theorem Holds.pushAll {old : List Word} (holds : memory.Holds a old)
    (short : 4 * (words.length + old.length) ≤ 2 ^ 32) :
    (memory.pushAll a words).Holds (a - BitVec.ofNat 32 (4 * words.length))
      (words.reverse ++ old) := by
  induction words generalizing memory a old with
  | nil => simpa [pushAll] using holds
  | cons word words ih =>
      simp only [List.length_cons] at short
      have pushed : (memory.store (a - 4) word).Holds (a - 4) (word :: old) := holds.push (by omega)
      have next := ih pushed (by simp only [List.length_cons]; omega)
      have place : a - 4 - BitVec.ofNat 32 (4 * words.length) =
          a - BitVec.ofNat 32 (4 * (word :: words).length) := by
        simp only [List.length_cons]
        bv_omega
      rw [place] at next
      simpa [pushAll] using next

theorem pushAll_append {others : List Word} :
    memory.pushAll a (words ++ others) =
      (memory.pushAll a words).pushAll (a - BitVec.ofNat 32 (4 * words.length)) others := by
  induction words generalizing memory a with
  | nil =>
      have same : a - BitVec.ofNat 32 (4 * 0) = a := by bv_omega
      rw [List.nil_append, List.length_nil, same, pushAll]
  | cons word words ih =>
      have place : a - 4 - BitVec.ofNat 32 (4 * words.length) =
          a - BitVec.ofNat 32 (4 * (words.length + 1)) := by bv_omega
      rw [List.cons_append, pushAll, pushAll, ih, place, List.length_cons]

end Memory

end WindOs.X86
