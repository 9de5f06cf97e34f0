import WindOs.Libs.CString

namespace WindOs.Libs

open Data

/-! # Copies in memory

`memcpy` and `strcpy` go upwards byte by byte, so what they make of a source that they write into
depends only on how far behind the destination it begins.
-/

/-- `*ptr = c` -/
def Memory.put (memory : Memory) (ptr : BitVec 32) (c : CChar) : Memory := fun x =>
  if x = ptr then c else memory x

/-- One round of `memcpy`, with `new_dst`, `new_src` and `size`. -/
def memcpyRound : BitVec 32 × BitVec 32 × BitVec 32 × Memory →
    (BitVec 32 × BitVec 32 × BitVec 32 × Memory) ⊕ Memory
  | (newDst, newSrc, size, memory) =>
      if 0#32 < size then
        .inl (newDst + 1#32, newSrc + 1#32, size - 1#32, memory.put newDst (memory newSrc))
      else .inr memory

def memcpy (fuel : Nat) (memory : Memory) (dst src size : BitVec 32) :
    Option (BitVec 32 × Memory) :=
  (loop memcpyRound fuel (dst, src, size, memory)).map fun after => (dst, after)

/-- One round of `strcpy`, with `dest` and `src`. -/
def strcpyRound : BitVec 32 × BitVec 32 × Memory → (BitVec 32 × BitVec 32 × Memory) ⊕ Memory
  | (dest, src, memory) =>
      if memory src ≠ 0#8 then .inl (dest + 1#32, src + 1#32, memory.put dest (memory src))
      else .inr (memory.put dest 0#8)

def strcpy (fuel : Nat) (memory : Memory) (dest src : BitVec 32) : Option (BitVec 32 × Memory) :=
  if dest = 0#32 ∨ src = 0#32 then some (0#32, memory)
  else (loop strcpyRound fuel (dest, src, memory)).map fun after => (dest, after)

/-- One round of `strlen`, with `ptr` and `len`. -/
def strlenRound (memory : Memory) : BitVec 32 × BitVec 32 → (BitVec 32 × BitVec 32) ⊕ BitVec 32
  | (ptr, len) => if memory ptr ≠ 0#8 then .inl (ptr + 1#32, len + 1#32) else .inr len

def strlen (fuel : Nat) (memory : Memory) (ptr : BitVec 32) : Option (BitVec 32) :=
  if ptr = 0#32 then some 0#32 else loop (strlenRound memory) fuel (ptr, 0#32)

variable {memory other before : Memory} {ptr q dst dest src size : BitVec 32} {s : List CChar}
  {n fuel : Nat}

/-- After `n` rounds; where the source has been written over, its beginning comes again. -/
structure CopiedUpTo (before : Memory) (dst src : BitVec 32) (n : Nat) (memory : Memory) :
    Prop where
  copied : ∀ i < n, memory (dst + BitVec.ofNat 32 i) =
    before (src + BitVec.ofNat 32 (i % (dst - src).toNat))
  kept : ∀ x, n ≤ (x - dst).toNat → memory x = before x

theorem CopiedUpTo.start : CopiedUpTo before dst src 0 before where
  copied _ none := absurd none (Nat.not_lt_zero _)
  kept _ _ := rfl

theorem toNat_sub_add {i : Nat} (small : i < 2 ^ 32) :
    (ptr + BitVec.ofNat 32 i - ptr).toNat = i := by
  bv_omega

/-- What is read in the next round. -/
theorem CopiedUpTo.read (done : CopiedUpTo before dst src n memory) (small : n < 2 ^ 32) :
    memory (src + BitVec.ofNat 32 n) = before (src + BitVec.ofNat 32 (n % (dst - src).toNat)) := by
  by_cases behind : 0 < (dst - src).toNat ∧ (dst - src).toNat ≤ n
  · obtain ⟨apart, reached⟩ := behind
    have place : src + BitVec.ofNat 32 n = dst + BitVec.ofNat 32 (n - (dst - src).toNat) := by
      bv_omega
    rw [place, done.copied _ (by omega), ← Nat.mod_eq_sub_mod reached]
  · have far : n ≤ (src + BitVec.ofNat 32 n - dst).toNat := by bv_omega
    have same : n % (dst - src).toNat = n := by
      by_cases zero : (dst - src).toNat = 0
      · rw [zero, Nat.mod_zero]
      · exact Nat.mod_eq_of_lt (by omega)
    rw [done.kept _ far, same]

theorem CopiedUpTo.round (done : CopiedUpTo before dst src n memory) (small : n < 2 ^ 32) :
    CopiedUpTo before dst src (n + 1)
      (memory.put (dst + BitVec.ofNat 32 n) (memory (src + BitVec.ofNat 32 n))) where
  copied i inside := by
    cases Nat.lt_succ_iff_lt_or_eq.mp inside with
    | inl earlier =>
        have elsewhere : dst + BitVec.ofNat 32 i ≠ dst + BitVec.ofNat 32 n := by
          intro same
          have first := @toNat_sub_add dst i (by omega)
          rw [same, toNat_sub_add small] at first
          omega
        exact (if_neg elsewhere).trans (done.copied i earlier)
    | inr here =>
        subst here
        exact (if_pos rfl).trans (done.read small)
  kept x outside := by
    have elsewhere : x ≠ dst + BitVec.ofNat 32 n := by
      intro same
      rw [same, toNat_sub_add small] at outside
      omega
    exact (if_neg elsewhere).trans (done.kept x (by omega))

theorem ofNat_succ : ptr + BitVec.ofNat 32 n + 1#32 = ptr + BitVec.ofNat 32 (n + 1) := by
  bv_omega

/-- The rounds that are left, by induction on the bytes that are left. -/
theorem CopiedUpTo.run {left : Nat} (done : CopiedUpTo before dst src n memory)
    (small : n + left < 2 ^ 32) (enough : left < fuel) :
    ∃ after, loop memcpyRound fuel (dst + BitVec.ofNat 32 n, src + BitVec.ofNat 32 n,
        BitVec.ofNat 32 left, memory) = some after ∧
      CopiedUpTo before dst src (n + left) after := by
  induction left generalizing n memory fuel with
  | zero =>
      obtain ⟨fuel, rfl⟩ : ∃ less, fuel = less + 1 := ⟨fuel - 1, by omega⟩
      exact ⟨memory, loop_exit rfl, done⟩
  | succ left ih =>
      obtain ⟨fuel, rfl⟩ : ∃ less, fuel = less + 1 := ⟨fuel - 1, by omega⟩
      have again : 0#32 < BitVec.ofNat 32 (left + 1) := by bv_omega
      have fewer : BitVec.ofNat 32 (left + 1) - 1#32 = BitVec.ofNat 32 left := by bv_omega
      have round : memcpyRound (dst + BitVec.ofNat 32 n, src + BitVec.ofNat 32 n,
          BitVec.ofNat 32 (left + 1), memory) =
            .inl (dst + BitVec.ofNat 32 (n + 1), src + BitVec.ofNat 32 (n + 1),
              BitVec.ofNat 32 left,
              memory.put (dst + BitVec.ofNat 32 n) (memory (src + BitVec.ofNat 32 n))) := by
        rw [memcpyRound, if_pos again, fewer, ofNat_succ, ofNat_succ]
      obtain ⟨after, ran, all⟩ := ih (done.round (by omega)) (by omega)
        (show left < fuel by omega)
      refine ⟨after, (loop_next round).trans ran, ?_⟩
      rw [Nat.add_right_comm] at all
      exact all

/-- `memcpy` for any two places: a destination that lies in the source gets its beginning again and
again, and every other one the source. -/
theorem memcpy_copies (enough : size.toNat < fuel) :
    ∃ after, memcpy fuel memory dst src size = some (dst, after) ∧
      (∀ i < size.toNat, after (dst + BitVec.ofNat 32 i) =
        memory (src + BitVec.ofNat 32 (i % (dst - src).toNat))) ∧
      ∀ x, size.toNat ≤ (x - dst).toNat → after x = memory x := by
  have none : CopiedUpTo memory dst src 0 memory := .start
  obtain ⟨after, ran, all⟩ := none.run (show 0 + size.toNat < 2 ^ 32 by omega) enough
  rw [BitVec.ofNat_toNat, BitVec.setWidth_eq] at ran
  rw [Nat.zero_add] at all
  refine ⟨after, ?_, all.copied, all.kept⟩
  have begins : (dst + BitVec.ofNat 32 0, src + BitVec.ofNat 32 0, size, memory) =
      (dst, src, size, memory) := by
    rw [BitVec.add_zero, BitVec.add_zero]
  rw [begins] at ran
  rw [memcpy, ran, Option.map_some]

/-- A string of two characters. -/
def greeting : Memory := fun x =>
  if x = 0x1000#32 then 72#8 else if x = 0x1001#32 then 105#8 else 0#8

theorem memcpy_copies_greeting : ∃ after, memcpy 6 greeting 0x1002#32 0x1000#32 5#32 =
    some (0x1002#32, after) ∧ after 0x1005#32 = 105#8 ∧ after 0x1006#32 = 72#8 := by
  obtain ⟨after, done, copied, -⟩ :=
    @memcpy_copies greeting 0x1002#32 0x1000#32 5#32 6 (by decide)
  exact ⟨after, done, (copied 3 (by decide)).trans (by decide),
    (copied 4 (by decide)).trans (by decide)⟩

theorem Memory.Holds.set {i : Nat} (holds : memory.Holds ptr s) (inside : i < s.length) :
    memory (ptr + BitVec.ofNat 32 i) ≠ 0#8 := by
  induction s generalizing ptr i with
  | nil => exact absurd inside (Nat.not_lt_zero _)
  | cons c s ih =>
      obtain ⟨here, nonzero, behind⟩ := holds
      cases i with
      | zero =>
          rw [BitVec.add_zero, here]
          exact nonzero
      | succ i =>
          have place : ptr + 1#32 + BitVec.ofNat 32 i = ptr + BitVec.ofNat 32 (i + 1) := by bv_omega
          rw [← place]
          exact ih behind (Nat.lt_of_succ_lt_succ inside)

theorem Memory.Holds.ended (holds : memory.Holds ptr s) :
    memory (ptr + BitVec.ofNat 32 s.length) = 0#8 := by
  induction s generalizing ptr with
  | nil =>
      rw [List.length_nil, BitVec.add_zero]
      exact holds
  | cons c s ih =>
      have place : ptr + 1#32 + BitVec.ofNat 32 s.length =
          ptr + BitVec.ofNat 32 (c :: s).length := by
        rw [List.length_cons]
        bv_omega
      rw [← place]
      exact ih holds.2.2

/-- A string does not go around the whole memory: its NUL would be one of its characters. -/
theorem Memory.Holds.length_lt (holds : memory.Holds ptr s) : s.length < 2 ^ 32 := by
  refine Nat.lt_of_not_le fun long => ?_
  have again : BitVec.ofNat 32 s.length = BitVec.ofNat 32 (s.length - 2 ^ 32) := by bv_omega
  have ended := holds.ended
  rw [again] at ended
  exact holds.set (by omega) ended

/-- The same characters at another place are the same string. -/
theorem Memory.Holds.moved (holds : memory.Holds ptr s)
    (same : ∀ i ≤ s.length, other (q + BitVec.ofNat 32 i) = memory (ptr + BitVec.ofNat 32 i)) :
    other.Holds q s := by
  induction s generalizing ptr q with
  | nil =>
      have first := same 0 (Nat.le_refl _)
      rw [BitVec.add_zero, BitVec.add_zero] at first
      exact first.trans holds
  | cons c s ih =>
      obtain ⟨here, nonzero, behind⟩ := holds
      have first := same 0 (Nat.zero_le _)
      rw [BitVec.add_zero, BitVec.add_zero, here] at first
      refine ⟨first, nonzero, ih behind fun i inside => ?_⟩
      have next := same (i + 1) (Nat.succ_le_succ inside)
      have there : q + BitVec.ofNat 32 (i + 1) = q + 1#32 + BitVec.ofNat 32 i := by bv_omega
      have place : ptr + BitVec.ofNat 32 (i + 1) = ptr + 1#32 + BitVec.ofNat 32 i := by bv_omega
      rw [there, place] at next
      exact next

theorem strlen_loop {len : BitVec 32} (holds : memory.Holds ptr s) :
    loop (strlenRound memory) (s.length + 1) (ptr, len) =
      some (len + BitVec.ofNat 32 s.length) := by
  induction s generalizing ptr len with
  | nil =>
      have ended : memory ptr = 0#8 := holds
      rw [loop_exit (by rw [strlenRound, if_neg (not_not_intro ended)]), List.length_nil,
        BitVec.add_zero]
  | cons c s ih =>
      obtain ⟨here, nonzero, behind⟩ := holds
      have round : strlenRound memory (ptr, len) = .inl (ptr + 1#32, len + 1#32) := by
        rw [strlenRound, here, if_pos nonzero]
      rw [List.length_cons, loop_next round, ih behind]
      congr 1
      bv_omega

theorem strlen_length (holds : memory.Holds ptr s) (set : ptr ≠ 0#32) :
    strlen (s.length + 1) memory ptr = some (BitVec.ofNat 32 s.length) := by
  rw [strlen, if_neg set, strlen_loop holds, BitVec.zero_add]

/-- The destination begins in the source behind its first character. -/
def Inside (dest src : BitVec 32) (s : List CChar) : Prop :=
  dest ≠ src ∧ (dest - src).toNat ≤ s.length

theorem mod_of_not_inside {i : Nat} (apart : ¬ Inside dest src s) (inside : i ≤ s.length) :
    i % (dest - src).toNat = i := by
  by_cases same : dest = src
  · rw [same, BitVec.sub_self]
    exact Nat.mod_zero i
  · refine Nat.mod_eq_of_lt (Nat.lt_of_le_of_lt inside ?_)
    exact Nat.lt_of_not_le fun near => apart ⟨same, near⟩

/-- The rounds of `strcpy` up to the NUL, by induction on the characters that are left. -/
theorem CopiedUpTo.strcpy {left : Nat} (source : before.Holds src s) (apart : ¬ Inside dest src s)
    (done : CopiedUpTo before dest src n memory) (all : n + left = s.length) :
    ∃ after, loop strcpyRound (left + 1)
        (dest + BitVec.ofNat 32 n, src + BitVec.ofNat 32 n, memory) = some after ∧
      CopiedUpTo before dest src (s.length + 1) after := by
  have short := source.length_lt
  have read := done.read (by omega)
  rw [mod_of_not_inside apart (by omega)] at read
  have next := done.round (by omega)
  induction left generalizing n memory with
  | zero =>
      have here : n = s.length := all
      subst here
      have ended : memory (src + BitVec.ofNat 32 s.length) = 0#8 := read.trans source.ended
      rw [ended] at next
      exact ⟨_, loop_exit (by rw [strcpyRound, if_neg (not_not_intro ended)]), next⟩
  | succ left ih =>
      have goes : memory (src + BitVec.ofNat 32 n) ≠ 0#8 := by
        rw [read]
        exact source.set (by omega)
      have round : strcpyRound (dest + BitVec.ofNat 32 n, src + BitVec.ofNat 32 n, memory) =
          .inl (dest + BitVec.ofNat 32 (n + 1), src + BitVec.ofNat 32 (n + 1),
            memory.put (dest + BitVec.ofNat 32 n) (memory (src + BitVec.ofNat 32 n))) := by
        rw [strcpyRound, if_pos goes, ofNat_succ, ofNat_succ]
      rw [loop_next round]
      have following := next.read (by omega)
      rw [mod_of_not_inside apart (by omega)] at following
      exact ih next (by omega) following (next.round (by omega))

/-- No NUL is ever read when the characters between the pointers are none. -/
theorem strcpy_endless {d : Nat} (some : 0 < d)
    (window : ∀ j < d, memory (src + BitVec.ofNat 32 j) ≠ 0#8) :
    loop strcpyRound fuel (src + BitVec.ofNat 32 d, src, memory) = none := by
  induction fuel generalizing src memory with
  | zero => rfl
  | succ fuel ih =>
      have first := window 0 some
      rw [BitVec.add_zero] at first
      have place : src + BitVec.ofNat 32 d + 1#32 = src + 1#32 + BitVec.ofNat 32 d := by bv_omega
      have round : strcpyRound (src + BitVec.ofNat 32 d, src, memory) =
          .inl (src + 1#32 + BitVec.ofNat 32 d, src + 1#32,
            memory.put (src + BitVec.ofNat 32 d) (memory src)) := by
        rw [strcpyRound, if_pos first, place]
      rw [loop_next round]
      refine ih fun j inside => ?_
      by_cases written : src + 1#32 + BitVec.ofNat 32 j = src + BitVec.ofNat 32 d
      · exact fun zero => first ((if_pos written).symm.trans zero)
      · have old : src + 1#32 + BitVec.ofNat 32 j = src + BitVec.ofNat 32 (j + 1) := by bv_omega
        have inner : j + 1 < d := by
          refine Nat.lt_of_le_of_ne inside fun last => written ?_
          rw [old, last]
        have kept : memory.put (src + BitVec.ofNat 32 d) (memory src)
            (src + 1#32 + BitVec.ofNat 32 j) = memory (src + 1#32 + BitVec.ofNat 32 j) :=
          if_neg written
        rw [kept, old]
        exact window (j + 1) inner

theorem strcpy_done (source : memory.Holds src s) (destSet : dest ≠ 0#32) (srcSet : src ≠ 0#32)
    (apart : ¬ Inside dest src s) :
    ∃ after, strcpy (s.length + 1) memory dest src = some (dest, after) ∧
      after.Holds dest s ∧ ∀ x, s.length < (x - dest).toNat → after x = memory x := by
  have none : CopiedUpTo memory dest src 0 memory := .start
  obtain ⟨after, ran, all⟩ := none.strcpy source apart (Nat.zero_add _)
  rw [BitVec.add_zero, BitVec.add_zero] at ran
  have set : ¬ (dest = 0#32 ∨ src = 0#32) := not_or.mpr ⟨destSet, srcSet⟩
  refine ⟨after, by rw [strcpy, if_neg set, ran, Option.map_some], ?_, all.kept⟩
  refine source.moved fun i inside => ?_
  rw [all.copied i (Nat.lt_succ_of_le inside), mod_of_not_inside apart inside]

theorem strcpy_unique {more : Nat} {first second : BitVec 32 × Memory}
    (returned : strcpy fuel memory dest src = some first)
    (again : strcpy more memory dest src = some second) : first = second := by
  by_cases null : dest = 0#32 ∨ src = 0#32
  · rw [strcpy, if_pos null] at returned again
    exact Option.some.inj (returned.symm.trans again)
  · rw [strcpy, if_neg null, Option.map_eq_some_iff] at returned again
    obtain ⟨after, ran, rfl⟩ := returned
    obtain ⟨other, ranAgain, rfl⟩ := again
    rw [loop_unique ran ranAgain]

/-- `strcpy` returns unless it overwrites the NUL before it is read, and then the copy is the
string, with the same length. -/
theorem strcpy_iff (source : memory.Holds src s) (destSet : dest ≠ 0#32) (srcSet : src ≠ 0#32) :
    ((∃ fuel result, strcpy fuel memory dest src = some result) ↔ ¬ Inside dest src s) ∧
      ∀ fuel ret after, strcpy fuel memory dest src = some (ret, after) →
        ret = dest ∧ after.Holds dest s ∧
          (∀ x, s.length < (x - dest).toNat → after x = memory x) ∧
          strlen (s.length + 1) after ret = strlen (s.length + 1) memory src := by
  have set : ¬ (dest = 0#32 ∨ src = 0#32) := not_or.mpr ⟨destSet, srcSet⟩
  have outside : (∃ fuel result, strcpy fuel memory dest src = some result) →
      ¬ Inside dest src s := by
    rintro ⟨fuel, result, returned⟩ ⟨different, near⟩
    have place : src + BitVec.ofNat 32 (dest - src).toNat = dest := by
      rw [BitVec.ofNat_toNat, BitVec.setWidth_eq]
      bv_omega
    have some : 0 < (dest - src).toNat := by bv_omega
    have endless := @strcpy_endless memory src fuel (dest - src).toNat some
      fun j inside => source.set (Nat.lt_of_lt_of_le inside near)
    rw [place] at endless
    rw [strcpy, if_neg set, endless] at returned
    cases returned
  refine ⟨⟨outside, fun apart => ?_⟩, fun fuel ret after returned => ?_⟩
  · obtain ⟨after, done, -⟩ := strcpy_done source destSet srcSet apart
    exact ⟨_, _, done⟩
  · obtain ⟨copy, done, holds, kept⟩ := strcpy_done source destSet srcSet
      (outside ⟨fuel, _, returned⟩)
    cases strcpy_unique returned done
    exact ⟨rfl, holds, kept, (strlen_length holds destSet).trans (strlen_length source srcSet).symm⟩

theorem greeting_holds : greeting.Holds 0x1000#32 [72#8, 105#8] :=
  ⟨rfl, by decide, rfl, by decide, rfl⟩

theorem strcpy_iff_greeting :
    (¬ ∃ fuel result, strcpy fuel greeting 0x1001#32 0x1000#32 = some result) ∧
      ∃ fuel ret after, strcpy fuel greeting 0x2000#32 0x1000#32 = some (ret, after) ∧
        after.Holds 0x2000#32 [72#8, 105#8] := by
  have near := strcpy_iff greeting_holds (show 0x1001#32 ≠ 0#32 by decide) (by decide)
  have far := strcpy_iff greeting_holds (show 0x2000#32 ≠ 0#32 by decide) (by decide)
  refine ⟨fun returns => near.1.mp returns ⟨by decide, by decide⟩, ?_⟩
  obtain ⟨fuel, ⟨ret, after⟩, done⟩ := far.1.mpr fun inside => absurd inside.2 (by decide)
  exact ⟨fuel, ret, after, done, (far.2 fuel ret after done).2.1⟩

end WindOs.Libs
