import Mathlib.Algebra.GroupWithZero.Nat
import Mathlib.Logic.Function.Basic

namespace WindOs.Data

/-! # Words and sectors in a page of bytes

A page is a function from offsets to bytes.  Words are little-endian and aligned;
a disk is a sequence of sectors, and a page takes several of them.
-/

/-- The bytes of a page by their offset. -/
def Bytes : Type := Nat → UInt8

namespace Bytes

/-- A page of zeros. -/
def zero : Bytes := fun _ => 0

instance : Inhabited Bytes := ⟨zero⟩

variable {page other : Bytes} {i j k w : Nat}

/-- The word with index `i`. -/
def word (page : Bytes) (i : Nat) : Nat :=
  (page (4 * i)).toNat + 2 ^ 8 * (page (4 * i + 1)).toNat + 2 ^ 16 * (page (4 * i + 2)).toNat +
    2 ^ 24 * (page (4 * i + 3)).toNat

def setWord (page : Bytes) (i w : Nat) : Bytes :=
  fun k => if k / 4 = i then UInt8.ofNat (w / 2 ^ (8 * (k % 4))) else page k

def setByte (page : Bytes) (k : Nat) (byte : UInt8) : Bytes :=
  fun j => if j = k then byte else page j

@[simp] theorem setByte_self {byte : UInt8} : page.setByte k byte k = byte := if_pos rfl

theorem setByte_of_ne {byte : UInt8} (different : j ≠ k) : page.setByte k byte j = page j :=
  if_neg different

theorem word_lt : page.word i < 2 ^ 32 := by
  have first := (page (4 * i)).toNat_lt
  have second := (page (4 * i + 1)).toNat_lt
  have third := (page (4 * i + 2)).toNat_lt
  have fourth := (page (4 * i + 3)).toNat_lt
  simp only [word]
  omega

theorem setWord_byte (small : k < 4) :
    page.setWord i w (4 * i + k) = UInt8.ofNat (w / 2 ^ (8 * k)) := by
  have index : (4 * i + k) / 4 = i := by omega
  have rest : (4 * i + k) % 4 = k := by omega
  simp only [setWord, index, rest, if_true]

@[simp] theorem word_setWord_self (fits : w < 2 ^ 32) : (page.setWord i w).word i = w := by
  have first : page.setWord i w (4 * i) = UInt8.ofNat (w / 2 ^ (8 * 0)) :=
    setWord_byte (show 0 < 4 by omega)
  simp only [word, first, setWord_byte (show 1 < 4 by omega), setWord_byte (show 2 < 4 by omega),
    setWord_byte (show 3 < 4 by omega), UInt8.toNat_ofNat']
  omega

theorem word_setWord_of_ne (different : j ≠ i) : (page.setWord i w).word j = page.word j := by
  have outside : ∀ k < 4, page.setWord i w (4 * j + k) = page (4 * j + k) := by
    intro k small
    have index : (4 * j + k) / 4 ≠ i := by omega
    simp only [setWord, if_neg index]
  have first := outside 0 (by omega)
  rw [Nat.add_zero] at first
  simp only [word, first, outside 1 (by omega), outside 2 (by omega), outside 3 (by omega)]

theorem setWord_setWord {w' : Nat} : (page.setWord i w).setWord i w' = page.setWord i w' := by
  funext k
  simp only [setWord]
  split <;> rfl

@[simp] theorem word_zero : zero.word i = 0 := by
  simp [word, zero]

end Bytes

/-- The sectors of a disk. -/
abbrev Disk : Type := Nat → Bytes

namespace Disk

/-- How many bytes a sector has. -/
def sectSize : Nat := 512

/-- Write the first `count` sectors of a page. -/
def write (disk : Disk) (sect count : Nat) (page : Bytes) : Disk :=
  fun s k => if sect ≤ s ∧ s < sect + count then page ((s - sect) * sectSize + k) else disk s k

/-- A page with its first `count` sectors read from the disk. -/
def read (disk : Disk) (sect count : Nat) (page : Bytes) : Bytes :=
  fun k => if k < count * sectSize then disk (sect + k / sectSize) (k % sectSize) else page k

variable {disk : Disk} {page old : Bytes} {sect other count k : Nat}

theorem read_write_self (inside : k < count * sectSize) :
    (disk.write sect count page).read sect count old k = page k := by
  have sector : k / sectSize < count := Nat.div_lt_of_lt_mul (by rwa [Nat.mul_comm])
  have here : sect ≤ sect + k / sectSize ∧ sect + k / sectSize < sect + count :=
    ⟨Nat.le_add_right _ _, Nat.add_lt_add_left sector _⟩
  simp only [read, write, if_pos inside, if_pos here]
  rw [Nat.add_sub_cancel_left, Nat.mul_comm, Nat.div_add_mod]

theorem read_write_of_apart (apart : sect + count ≤ other ∨ other + count ≤ sect)
    (inside : k < count * sectSize) :
    (disk.write sect count page).read other count old k = disk.read other count old k := by
  have sector : k / sectSize < count := Nat.div_lt_of_lt_mul (by rwa [Nat.mul_comm])
  have elsewhere : ¬ (sect ≤ other + k / sectSize ∧ other + k / sectSize < sect + count) := by
    generalize k / sectSize = s at sector
    omega
  simp only [read, write, if_pos inside, if_neg elsewhere]

end Disk

end WindOs.Data
