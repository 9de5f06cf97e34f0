import WindOs.Mm.Replacement

namespace WindOs.Mm

open Data

/-! # The two branches of `do_swap`

An entry without an address and without flags belongs to a page that was never touched;
anything else is taken for the slot of a page on disk.
-/

namespace Entry

/-- `pte->page_addr == 0 && pte->sign == 0` -/
def Blank (entry : Nat) : Prop := addr entry = 0 ∧ sign entry = 0

instance (entry : Nat) : Decidable (Blank entry) := inferInstanceAs (Decidable (_ ∧ _))

/-- The entry is present and for the user, and may be written to if the VMA may. -/
def Follows (flags entry : Nat) : Prop :=
  Present entry ∧ sign entry &&& 0x4 ≠ 0 ∧ (sign entry &&& 0x2 ≠ 0 ↔ flags &&& 0x2 ≠ 0)

/-- The fields of the word that `swap_out` writes have their borders elsewhere. -/
theorem blank_slotWord {v : Nat} : Blank (Paging.slotWord v) ↔ v % 2 = 1 ∧ v < 15 := by
  simp only [Blank, addr, sign, Paging.slotWord]
  omega

end Entry

namespace Paging

open VmState PageState

variable {pg after later out : Paging} {blocks : List (Nat × Nat)} {free fifo : List Nat}
  {mm : VmaList} {frame i p page u v vma cr2 sign : Nat} {isWrite : Bool}

/-- The VMA that `do_swap` finds for an access, and that allows it. -/
structure Permits (pg : Paging) (cr2 : Nat) (isWrite : Bool) (vma : Nat) (mm : VmaList) : Prop where
  found : pg.mm.findVma (pg.mm.allocated + 1) (cr2 - cr2 % pageSize) = some (some vma, mm)
  allowed : (mm.vmas vma).flags &&& (if isWrite then 0x2 else 0x1 ||| 0x4) ≠ 0

/-- A masked bit other than the first is never 1. -/
theorem masked_ne_one (flags : Nat) : flags &&& 0x2 ≠ 1 := by
  intro same
  have bit := congrArg (Nat.testBit · 0) same
  simp at bit

theorem doSwap_permitted {alloc : Paging → Except Halt (Option Nat × Paging)}
    (permits : pg.Permits cr2 isWrite vma mm) :
    pg.doSwap alloc cr2 isWrite = { pg with mm }.bindPage alloc (cr2 - cr2 % pageSize) 5 := by
  have allowed := permits.allowed
  unfold Paging.doSwap
  simp only [permits.found, if_neg (masked_ne_one _)]
  cases isWrite with
  | true =>
      rw [if_neg (fun both => allowed both.2), if_neg (fun both => both.1 rfl)]
  | false =>
      rw [if_neg (fun both => nomatch both.1), if_neg (fun both => allowed both.2)]

/-- Whatever the allocator does, the fault ends as `swap_in` does. -/
def TakesSwapIn (pg : Paging) (cr2 : Nat) (isWrite : Bool) (mm : VmaList) : Prop :=
  ∀ alloc, pg.doSwap alloc cr2 isWrite = { pg with mm }.swapIn alloc (cr2 - cr2 % pageSize)

theorem bindPage_found {alloc : Paging → Except Halt (Option Nat × Paging)} {la : Nat}
    (there : pg.lookupPte pg.pde la = some (frame, i)) :
    pg.bindPage alloc la sign = if Entry.Blank (pg.entry frame i) then pg.touch alloc la sign
      else pg.swapIn alloc la := by
  have present : Entry.Present (pg.entry pg.pde (la / 2 ^ 22)) := by
    by_contra missing
    rw [lookupPte, if_neg missing] at there
    cases there
  have got : pg.getPte alloc pg.pde la = .ok (some (frame, i), pg) := by
    rw [getPte, if_pos present, there]
  unfold Paging.bindPage
  rw [got]
  rfl

theorem takesSwapIn_iff (permits : pg.Permits cr2 isWrite vma mm)
    (there : pg.lookupPte pg.pde (cr2 - cr2 % pageSize) = some (frame, i)) :
    pg.TakesSwapIn cr2 isWrite mm ↔ ¬ Entry.Blank (pg.entry frame i) := by
  have branch : ∀ alloc, pg.doSwap alloc cr2 isWrite =
      if Entry.Blank (pg.entry frame i) then { pg with mm }.touch alloc (cr2 - cr2 % pageSize) 5
      else { pg with mm }.swapIn alloc (cr2 - cr2 % pageSize) :=
    fun alloc => (doSwap_permitted permits).trans
      (@bindPage_found { pg with mm } frame i 5 alloc _ there)
  constructor
  · intro takes blank
    -- without a page to be had the two branches end differently
    have same := takes fun pg => .ok (none, pg)
    rw [branch, if_pos blank] at same
    cases same
  · intro named alloc
    rw [branch, if_neg named]

theorem evict_word (done : pg.evict page = .ok out) (small : pg.va page < 2 ^ 32)
    (slot : pg.lookupPte pg.pde (pg.va page) = some (frame, i)) :
    out.entry frame i = slotWord (pg.va page / pageSize) := by
  unfold Paging.evict at done
  rw [slot] at done
  change (pg.writeOut page frame i).freePage page 1 = .ok out at done
  unfold freePage at done
  split at done
  · cases done
    exact writeOut_entry small
  · cases done

/-- A page that was evicted is brought back by the next fault, unless its slot stands
in those bits of the entry that `do_swap` does not look at. -/
theorem evicted_page_recognised (done : pg.evict page = .ok out)
    (aligned : pg.va page % pageSize = 0) (small : pg.va page < 2 ^ 32)
    (slot : pg.lookupPte pg.pde (pg.va page) = some (frame, i))
    (there : later.lookupPte later.pde (pg.va page) = some (frame, i))
    (untouched : later.entry frame i = out.entry frame i)
    (here : cr2 - cr2 % pageSize = pg.va page) (permits : later.Permits cr2 isWrite vma mm) :
    later.TakesSwapIn cr2 isWrite mm ↔ pg.va page / pageSize % 2 = 0 ∨ 0xF000 ≤ pg.va page := by
  rw [takesSwapIn_iff permits (by rw [here]; exact there), untouched, evict_word done small slot,
    Entry.blank_slotWord]
  simp only [pageSize] at aligned ⊢
  omega

theorem SameTables.lookupPte {la : Nat} (same : SameTables pg after) :
    after.lookupPte after.pde la = pg.lookupPte pg.pde la := by
  have entry : after.entry after.pde (la / 2 ^ 22) = pg.entry pg.pde (la / 2 ^ 22) := by
    rw [Paging.entry, same.pde, same.directory, Paging.entry]
  rw [Paging.lookupPte, entry, Paging.lookupPte]

/-- The mm of `lowPages` once the VMA was found. -/
def lowMm : VmaList := { lowPages.mm with cache := some 0 }

/-- The page at `0x2000`. -/
theorem evicted_page_recognised_even :
    ∃ out, lowPages.evict 17 = .ok out ∧ out.TakesSwapIn 0x2abc true lowMm := by
  have queued : 1 ∈ [0, 1] := by decide
  obtain ⟨area, listed, done, -⟩ := @Resident.evict lowPages [] [2, 3] [0] [] 1 lowPages_resident
  have settled := @Resident.evicted_settled lowPages [] _ _ 1 area lowPages_resident queued
  have slot := (lowPages_resident.slot_table queued).1
  have permits : (lowPages.evicted 1 area).Permits 0x2abc true 0 lowMm := ⟨rfl, by decide⟩
  exact ⟨_, done, (evicted_page_recognised done (by decide) (by decide) slot
    (settled.lookupPte.trans slot) rfl (by decide) permits).mpr (.inl (by decide))⟩

/-- The word for the page at `0x1000` is `0x200`, which looks like no word at all. -/
theorem evicted_page_forgotten :
    ∃ out, lowPages.evict 16 = .ok out ∧ lowPages.va 16 = 0x1000 ∧
      out.Permits 0x1000 true 0 lowMm ∧ ¬ out.TakesSwapIn 0x1000 true lowMm := by
  have queued : 0 ∈ [0, 1] := by decide
  obtain ⟨area, listed, done, -⟩ := @Resident.evict lowPages [] [2, 3] [] [1] 0 lowPages_resident
  have settled := @Resident.evicted_settled lowPages [] _ _ 0 area lowPages_resident queued
  have slot := (lowPages_resident.slot_table queued).1
  have permits : (lowPages.evicted 0 area).Permits 0x1000 true 0 lowMm := ⟨rfl, by decide⟩
  refine ⟨_, done, rfl, permits, ?_⟩
  rw [takesSwapIn_iff permits (settled.lookupPte.trans slot), evict_word done (by decide) slot]
  decide

theorem installed_self {bytes : Bytes} {ref : Nat → Int} (plain : frame ≠ pg.pde)
    (has : pg.HasTable (v / 2 ^ 10)) (table : pg.table (v / 2 ^ 10) ≠ pg.pde) :
    Entry.sign ((pg.installed v frame sign bytes ref).pte v) = sign % 2 ^ 9 := by
  let loaded := { pg with memory := Function.update pg.memory frame bytes }
  let word := Entry.setAddr (Entry.setSign (pg.pte v) sign) frame
  have same := @hasTable_congr pg loaded (v / 2 ^ 10) rfl (Function.update_of_ne plain.symm _ _)
  have written : (loaded.setEntry (pg.table (v / 2 ^ 10)) (v % 2 ^ 10) word).pte v = word := by
    rw [@pte_setEntry_slot loaded _ _ _ _ table Entry.set_lt, if_pos ⟨same.1.mpr has, same.2, rfl⟩]
  have entry : (pg.installed v frame sign bytes ref).pte v = word :=
    (pte_of_memory rfl rfl).trans written
  rw [entry]
  simp only [word, Entry.sign, Entry.setAddr, Entry.setSign]
  omega

namespace Resident

theorem touch_sign (resident : pg.Resident blocks free fifo) (small : v < 2 ^ 20)
    (has : pg.HasTable (v / 2 ^ 10)) (absent : ¬ Entry.Present (pg.pte v))
    (done : pg.touch allocOne (pageSize * v) sign = .ok after) :
    after = pg ∨ Entry.sign (after.pte v) = sign % 2 ^ 9 := by
  have called := done
  unfold Paging.touch at called
  obtain ⟨⟨found, middle⟩, allocated, ended⟩ := ok_of_bind called
  cases found with
  | none =>
      cases ended
      exact .inl (allocPage_none allocated)
  | some frame =>
      obtain ⟨p, free, fifo, rfl, kept, settled, plain⟩ := resident.allocPage allocated
      have hasMiddle := settled.tables.1.mpr has
      rw [touch_eq allocated hasMiddle (settled.absent v absent)] at done
      cases done
      exact .inr (installed_self plain.1 hasMiddle (kept.notDirectory _ (by omega) hasMiddle))

theorem swapIn_sign (resident : pg.Resident blocks free fifo) (small : v < 2 ^ 20)
    (has : pg.HasTable (v / 2 ^ 10)) (absent : ¬ Entry.Present (pg.pte v))
    (done : pg.swapIn allocOne (pageSize * v) = .ok after) : Entry.sign (after.pte v) = 7 := by
  have called := done
  unfold Paging.swapIn at called
  obtain ⟨⟨found, middle⟩, allocated, ended⟩ := ok_of_bind called
  cases found with
  | none => cases ended
  | some frame =>
      obtain ⟨p, free, fifo, rfl, kept, settled, plain⟩ := resident.allocPage allocated
      have hasMiddle := settled.tables.1.mpr has
      rw [swapIn_eq has allocated plain.1 (fun _ => Mapping.load_pte plain small)
        ⟨hasMiddle, settled.tables.2⟩ (settled.absent v absent)] at done
      cases done
      exact installed_self plain.1 hasMiddle (kept.notDirectory _ (by omega) hasMiddle)

/-- What a fault at a page that is not present leaves in its entry. -/
theorem bindPage_sign (resident : pg.Resident blocks free fifo) (small : v < 2 ^ 20)
    (absent : ¬ Entry.Present (pg.pte v))
    (done : pg.bindPage allocOne (pageSize * v) sign = .ok after)
    (installed : after.pte v ≠ pg.pte v) :
    Entry.sign (after.pte v) = if Entry.Blank (pg.pte v) then sign % 2 ^ 9 else 7 := by
  have called := done
  unfold Paging.bindPage at called
  obtain ⟨⟨pte, middle⟩, got, ended⟩ := ok_of_bind called
  rcases getPte_ok got page_of_la with ⟨has, rfl, rfl⟩ | ⟨-, rfl, -⟩ |
      ⟨missing, frame, middle, allocated, rfl, rfl⟩
  · rw [bindPage_found (lookupPte_of_table has page_of_la), ← pte_of_table has] at done
    by_cases blank : Entry.Blank (middle.pte v)
    · rw [if_pos blank] at done ⊢
      cases resident.touch_sign small has absent done with
      | inl same => exact absurd (by rw [same]) installed
      | inr signed => exact signed
    · rw [if_neg blank] at done ⊢
      exact resident.swapIn_sign small has absent done
  · cases ended
  · obtain ⟨p, free, fifo, rfl, kept, settled, plain⟩ := resident.allocPage allocated
    have missingMiddle : ¬ middle.HasTable (v / 2 ^ 10) := fun has => missing (settled.tables.1.mp has)
    have table := @newTable_entry middle (middle.base + p) (v / 2 ^ 10) plain.1 kept.narrow
    have before : pg.pte v = 0 := if_neg missing
    let made := middle.newTable middle.pde (v / 2 ^ 10) (middle.base + p)
    have empty : made.pte v = 0 := by
      rw [pte_of_table table.1, table.2, newTable_zero plain.1]
    have residentMade : made.Resident blocks free fifo :=
      kept.newTable plain missingMiddle (by omega)
    have blank : Entry.Blank (made.entry (Entry.addr (made.entry middle.pde (v / 2 ^ 10)))
        (v % 2 ^ 10)) := by
      have word := @pte_of_table made v table.1
      rw [empty] at word
      show Entry.Blank (made.entry (made.table (v / 2 ^ 10)) (v % 2 ^ 10))
      rw [← word]
      decide
    rw [← settled.pde] at ended
    change (if Entry.Blank _ then made.touch allocOne (pageSize * v) sign
      else made.swapIn allocOne (pageSize * v)) = _ at ended
    rw [if_pos blank] at ended
    rw [before, if_pos (by decide)]
    cases residentMade.touch_sign small table.1 (by rw [empty]; exact Entry.not_present_zero) ended with
    | inl same =>
        rw [same, empty, before] at installed
        exact absurd rfl installed
    | inr signed => exact signed

end Resident

/-- The two paths give one right each: a page that is touched for the first time is never
writable and one that comes back always is. -/
theorem permissions_of_path (resident : pg.Resident blocks free fifo) (small : cr2 < 2 ^ 32)
    (absent : ¬ Entry.Present (pg.pte (cr2 / pageSize))) (permits : pg.Permits cr2 isWrite vma mm)
    (done : pg.doSwap allocOne cr2 isWrite = .ok after)
    (installed : after.pte (cr2 / pageSize) ≠ pg.pte (cr2 / pageSize)) :
    Entry.Follows (mm.vmas vma).flags (after.pte (cr2 / pageSize)) ↔
      if Entry.Blank (pg.pte (cr2 / pageSize)) then (mm.vmas vma).flags &&& 0x2 = 0
      else (mm.vmas vma).flags &&& 0x2 ≠ 0 := by
  have start : cr2 - cr2 % pageSize = pageSize * (cr2 / pageSize) := by
    have split := Nat.div_add_mod cr2 pageSize
    omega
  have inside : cr2 / pageSize < 2 ^ 20 := by
    simp only [pageSize]
    omega
  have residentFound : { pg with mm }.Resident blocks free fifo :=
    ⟨resident.notDirectory, resident.queues, resident.reserved, resident.backed, resident.room⟩
  rw [doSwap_permitted permits, start] at done
  have signed : Entry.sign (after.pte (cr2 / pageSize)) =
      if Entry.Blank (pg.pte (cr2 / pageSize)) then 5 else 7 :=
    residentFound.bindPage_sign inside absent done installed
  simp only [Entry.Follows, Entry.Present, signed]
  split
  · simp
  · simp

/-- `lowPages` with a VMA that may only be read. -/
def readOnly : Paging :=
  { lowPages with mm := VmaList.oneVma { vmmStart := 0x1000, vmmEnd := 0x4000, flags := 1 } }

/-- A page of it is touched for the first time. -/
theorem permissions_of_path_read :
    ∃ after, readOnly.doSwap allocOne 0x3000 false = .ok after ∧
      Entry.Follows 1 (after.pte (0x3000 / pageSize)) := by
  have resident : readOnly.Resident [] [2, 3] [0, 1] :=
    ⟨lowPages_resident.notDirectory, lowPages_resident.queues, lowPages_resident.reserved,
      lowPages_resident.backed, lowPages_resident.room⟩
  have permits : readOnly.Permits 0x3000 false 0 { readOnly.mm with cache := some 0 } :=
    ⟨rfl, by decide⟩
  have served : (readOnly.doSwap allocOne 0x3000 false).toOption.any (fun after =>
      decide (after.pte (0x3000 / pageSize) ≠ readOnly.pte (0x3000 / pageSize))) = true := by
    decide +kernel
  obtain ⟨after, returned, installed⟩ := (Option.any_eq_true _ _).mp served
  have blank : Entry.Blank (readOnly.pte (0x3000 / pageSize)) := by decide +kernel
  have done := ok_of_toOption returned
  refine ⟨after, done, (permissions_of_path resident (by decide) (by decide +kernel) permits done
    (of_decide_eq_true installed)).mpr ?_⟩
  rw [if_pos blank]
  decide

/-- A write to a page of a VMA that allows it: the page that is installed is read-only. -/
theorem first_write_read_only :
    ∃ after, lowPages.Permits 0x3000 true 0 lowMm ∧
      lowPages.doSwap allocOne 0x3000 true = .ok after ∧ Entry.sign (after.pte 3) = 5 ∧
      ¬ Entry.Follows (lowMm.vmas 0).flags (after.pte 3) := by
  have served : (lowPages.doSwap allocOne 0x3000 true).toOption.any
      (fun after => decide (Entry.sign (after.pte 3) = 5)) = true := by
    decide +kernel
  obtain ⟨after, returned, signed⟩ := (Option.any_eq_true _ _).mp served
  have sign : Entry.sign (after.pte 3) = 5 := of_decide_eq_true signed
  refine ⟨after, ⟨rfl, by decide⟩, ok_of_toOption returned, sign, ?_⟩
  rintro ⟨-, -, writes⟩
  rw [sign] at writes
  exact absurd (writes.mpr (by decide)) (by decide)

end Paging

end WindOs.Mm
