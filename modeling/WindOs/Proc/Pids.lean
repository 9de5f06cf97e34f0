import WindOs.Proc.Accounting

namespace WindOs.Proc

open Data Sync Sched

universe u

/-! # The numbers that get_pid hands out

The bitmap stands for the set of the pids in use, and `get_pid` is to hand out
the least number that is not in it.
-/

/-- The bit that stands for a pid. -/
def pidBit (pids : Nat → BitVec 32) (pid : Nat) : Bool :=
  (pids (pid / 32)).getLsbD (31 - pid % 32)

theorem pidUsed_iff {pids : Nat → BitVec 32} {pid : Nat} :
    pidUsed pids pid ↔ pidBit pids pid = true :=
  getBit_eq_one (by omega)

namespace ProcTable

/-- All pids below that of the first clear bit are used. -/
theorem clearBit_least {pids : Nat → BitVec 32} {i j k : Nat} (found : clearBit pids = some (i, j))
    (below : k < i * 32 + j) : pidUsed pids k := by
  have inside : k / 32 ∈ List.range bitmapNum := by
    have word := (clearBit_some found).1
    have bit := (clearBit_some found).2.1
    exact List.mem_range.mpr (by simp only [bitmapNum]; omega)
  obtain ⟨before, word, behind, split, inner, full⟩ := List.findSome?_eq_some_iff.mp found
  have ascending : (List.range bitmapNum).Pairwise (· < ·) := List.pairwise_lt_range
  rw [split] at inside ascending
  split at inner
  · obtain ⟨bit, search, same⟩ := Option.map_eq_some_iff.mp inner
    cases same
    obtain ⟨-, small, earlier⟩ := List.find?_range_eq_some.mp search
    -- Either the whole word lies before the one with the clear bit, or it is that one.
    obtain before | here := List.mem_append.mp inside
    · exact word_full rfl (full (k / 32) before)
    · have lower : i ≤ k / 32 := by
        cases List.mem_cons.mp here with
        | inl same => exact same.ge
        | inr later =>
            have tail := (List.pairwise_append.mp ascending).2.1
            exact ((List.pairwise_cons.mp tail).1 _ later).le
      have word : k / 32 = i := by
        have bit := List.mem_range.mp small
        omega
      have taken := earlier (k % 32) (by omega)
      have position : 31 - k % 32 < 32 := by omega
      rw [pidUsed, word, getBit_eq_one position]
      simpa [getBit_eq_zero position] using taken
  · cases inner

variable {π : Type u} {table : ProcTable π}

/-- Calls of `get_pid` one after the other, with what each of them returned. -/
def getPids (table : ProcTable π) : Nat → List Int × ProcTable π
  | 0 => ([], table)
  | count + 1 =>
      let (pid, next) := table.getPid
      let (pids, last) := next.getPids count
      (pid :: pids, last)

/-- A call of `get_pid` returns the least pid whose bit is clear and sets that bit. -/
structure HandsOut (table : ProcTable π) (pid : Nat) : Prop where
  small : pid < 4096
  clear : pidBit table.pids pid = false
  least : ∀ smaller < pid, pidBit table.pids smaller = true
  returned : table.getPid.1 = pid
  set : ∀ other, pidBit table.getPid.2.pids other = (pidBit table.pids other || decide (other = pid))
  rest : table.getPid.2 = { table with pids := table.getPid.2.pids }

/-- All bits are set, and a call returns -1 and changes nothing. -/
structure Exhausted (table : ProcTable π) : Prop where
  full : ∀ pid < 4096, pidBit table.pids pid = true
  refused : table.getPid = (-1, table)

theorem getPid_cases (table : ProcTable π) : (∃ pid, table.HandsOut pid) ∨ table.Exhausted := by
  cases found : clearBit table.pids with
  | none =>
      refine .inr ⟨fun pid small => pidUsed_iff.mp (clearBit_none found small), ?_⟩
      simp only [getPid, found]
  | some bit =>
      obtain ⟨i, j⟩ := bit
      obtain ⟨word, small, unused⟩ := clearBit_some found
      have called : table.getPid = ((i * 32 + j : Int), { table with
          pids := Function.update table.pids i (setBit (table.pids i) (31 - j) true) }) := by
        simp only [getPid, found]
      refine .inl ⟨i * 32 + j, by omega, ?_, ?_, ?_, ?_, ?_⟩
      · simpa [pidUsed_iff] using unused
      · exact fun smaller below => pidUsed_iff.mp (clearBit_least found below)
      · rw [called]
        simp
      · intro other
        rw [called, Bool.eq_iff_iff, ← pidUsed_iff, pidUsed_update small, pidUsed_iff]
        simp
      · rw [called]

theorem getPids_succ (count : Nat) : (table.getPids (count + 1)).1 =
    table.getPid.1 :: (table.getPid.2.getPids count).1 := rfl

/-- What a later call returns is not in use before the first. -/
theorem getPids_clear {count : Nat} {pid : Int} (returned : pid ∈ (table.getPids count).1)
    (success : pid ≠ -1) : ∃ free : Nat, pid = free ∧ pidBit table.pids free = false := by
  induction count generalizing table with
  | zero => simp [getPids] at returned
  | succ count ih =>
      rw [getPids_succ, List.mem_cons] at returned
      obtain ⟨first, handsOut⟩ | exhausted := table.getPid_cases
      · cases returned with
        | inl here => exact ⟨first, here.trans handsOut.returned, handsOut.clear⟩
        | inr later =>
            obtain ⟨free, same, clear⟩ := ih later
            rw [handsOut.set, Bool.or_eq_false_iff] at clear
            exact ⟨free, same, clear.1⟩
      · rw [exhausted.refused] at returned
        cases returned with
        | inl here => exact absurd here success
        | inr later => exact ih later

theorem getPids_nodup (table : ProcTable π) (count : Nat) :
    ((table.getPids count).1.filter (· ≠ -1)).Nodup := by
  induction count generalizing table with
  | zero => simp [getPids]
  | succ count ih =>
      rw [getPids_succ]
      obtain ⟨first, handsOut⟩ | exhausted := table.getPid_cases
      · have success : table.getPid.1 ≠ -1 := by
          rw [handsOut.returned]
          omega
        rw [List.filter_cons_of_pos (by simpa using success), List.nodup_cons]
        refine ⟨?_, ih _⟩
        intro again
        obtain ⟨free, same, clear⟩ := getPids_clear (List.mem_of_mem_filter again) success
        have equal : free = first := by
          rw [handsOut.returned] at same
          exact (Int.ofNat.inj same).symm
        rw [handsOut.set, equal] at clear
        simp at clear
      · rw [exhausted.refused]
        simpa using ih table

/-- Once the pids below `next` are in use, the calls return the others in their order. -/
theorem getPids_ascending {next : Nat} (inside : next ≤ 4096)
    (used : ∀ pid < 4096, pidBit table.pids pid = decide (pid < next)) (count : Nat) :
    (table.getPids count).1 =
      (List.range' next (min count (4096 - next))).map Nat.cast ++
        List.replicate (count - (4096 - next)) (-1) := by
  induction count generalizing table next with
  | zero => simp [getPids]
  | succ count ih =>
      rw [getPids_succ]
      obtain ⟨first, handsOut⟩ | exhausted := table.getPid_cases
      · have here : first = next := by
          have clear := handsOut.clear
          rw [used first handsOut.small, decide_eq_false_iff_not] at clear
          by_contra different
          have earlier := handsOut.least next (by omega)
          rw [used next (by have small := handsOut.small; omega)] at earlier
          simp at earlier
        subst here
        have small := handsOut.small
        have left : 4096 - first = (4096 - (first + 1)) + 1 := by omega
        have after : ∀ pid < 4096,
            pidBit table.getPid.2.pids pid = decide (pid < first + 1) := by
          intro pid below
          rw [handsOut.set, used pid below, Bool.eq_iff_iff]
          simp only [Bool.or_eq_true, decide_eq_true_eq]
          omega
        rw [handsOut.returned, ih small after, left, Nat.add_min_add_right, List.range'_succ,
          Nat.add_sub_add_right]
        simp
      · have last : next = 4096 := by
          by_contra different
          have full := exhausted.full next (by omega)
          rw [used next (by omega)] at full
          simp at full
        subst last
        rw [exhausted.refused, ih le_rfl used]
        simp [List.replicate_succ]

/-- `get_pid` hands out the least pid that is not in use, no pid twice, and from a
cleared bitmap all 4096 of them before it fails. -/
theorem pids_handed_out :
    (∀ table : ProcTable π, (∃ pid, table.HandsOut pid) ∨ table.Exhausted) ∧
    (∀ (table : ProcTable π) (count : Nat), ((table.getPids count).1.filter (· ≠ -1)).Nodup) ∧
    ∀ table : ProcTable π, (∀ i < bitmapNum, table.pids i = 0#32) → ∀ count,
      (table.getPids count).1 = (List.range (min count 4096)).map Nat.cast ++
        List.replicate (count - 4096) (-1) := by
  refine ⟨getPid_cases, getPids_nodup, ?_⟩
  intro table cleared count
  have unused : ∀ pid < 4096, pidBit table.pids pid = decide (pid < 0) := by
    intro pid small
    have word : pid / 32 < bitmapNum := by
      simp only [bitmapNum]
      omega
    simp [pidBit, cleared _ word]
  rw [getPids_ascending (Nat.zero_le _) unused count, List.range_eq_range']

theorem pids_handed_out_blank : (blank.getPids 5000).1 =
    (List.range (min 5000 4096)).map Nat.cast ++ List.replicate (5000 - 4096) (-1) :=
  pids_handed_out.2.2 blank (fun _ _ => rfl) 5000

end ProcTable

end WindOs.Proc
