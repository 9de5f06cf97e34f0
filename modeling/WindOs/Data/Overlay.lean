import WindOs.Data.Bytes

namespace WindOs.Data

namespace Bytes

/-! # Stretches of bytes that are written over

A memory is a function from addresses to bytes, like a page.
-/

/-- The `count` bytes from `a` on are those of another memory from its beginning. -/
def overlay (memory : Bytes) (a count : Nat) (source : Bytes) : Bytes := fun x =>
  if a ≤ x ∧ x < a + count then source (x - a) else memory x

/-- The bytes of a memory from `a` on. -/
def drop (memory : Bytes) (a : Nat) : Bytes := fun i => memory (a + i)

/-- The word and the half word at any address. -/
def wordAt (memory : Bytes) (a : Nat) : Nat :=
  (memory a).toNat + 2 ^ 8 * (memory (a + 1)).toNat + 2 ^ 16 * (memory (a + 2)).toNat +
    2 ^ 24 * (memory (a + 3)).toNat

def halfAt (memory : Bytes) (a : Nat) : Nat := (memory a).toNat + 2 ^ 8 * (memory (a + 1)).toNat

variable {memory other source next : Bytes} {a b count more i x : Nat}

theorem overlay_of_inside (inside : i < count) :
    memory.overlay a count source (a + i) = source i := by
  simp only [overlay, Nat.add_sub_cancel_left]
  rw [if_pos (by omega)]

theorem overlay_of_outside (outside : x < a ∨ a + count ≤ x) :
    memory.overlay a count source x = memory x :=
  if_neg (by omega)

@[simp] theorem overlay_zero : memory.overlay a 0 source = memory := by
  funext x
  exact overlay_of_outside (by omega)

theorem overlay_congr (same : ∀ i < count, source i = next i) :
    memory.overlay a count source = memory.overlay a count next := by
  funext x
  simp only [overlay]
  by_cases inside : a ≤ x ∧ x < a + count
  · rw [if_pos inside, if_pos inside, same (x - a) (by omega)]
  · rw [if_neg inside, if_neg inside]

/-- One stretch after another is one stretch. -/
theorem overlay_append :
    (memory.overlay a count source).overlay (a + count) more (source.drop count) =
      memory.overlay a (count + more) source := by
  funext x
  simp only [overlay, drop]
  by_cases second : a + count ≤ x ∧ x < a + count + more
  · rw [if_pos second, if_pos (by omega)]
    congr 1
    omega
  · rw [if_neg second]
    by_cases first : a ≤ x ∧ x < a + count
    · rw [if_pos first, if_pos (by omega)]
    · rw [if_neg first, if_neg (by omega)]

theorem drop_drop : (memory.drop a).drop b = memory.drop (a + b) := by
  funext i
  simp only [drop, Nat.add_assoc]

theorem wordAt_congr (same : ∀ i < 4, other (b + i) = memory (a + i)) :
    other.wordAt b = memory.wordAt a := by
  have first := same 0 (by decide)
  rw [Nat.add_zero, Nat.add_zero] at first
  simp only [wordAt, first, same 1 (by decide), same 2 (by decide), same 3 (by decide)]

theorem halfAt_congr (same : ∀ i < 2, other (b + i) = memory (a + i)) :
    other.halfAt b = memory.halfAt a := by
  have first := same 0 (by decide)
  rw [Nat.add_zero, Nat.add_zero] at first
  simp only [halfAt, first, same 1 (by decide)]

theorem wordAt_lt : memory.wordAt a < 2 ^ 32 := by
  have first := (memory a).toNat_lt
  have second := (memory (a + 1)).toNat_lt
  have third := (memory (a + 2)).toNat_lt
  have fourth := (memory (a + 3)).toNat_lt
  simp only [wordAt]
  omega

theorem halfAt_lt : memory.halfAt a < 2 ^ 16 := by
  have first := (memory a).toNat_lt
  have second := (memory (a + 1)).toNat_lt
  simp only [halfAt]
  omega

end Bytes

end WindOs.Data
