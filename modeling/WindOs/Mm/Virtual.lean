import WindOs.Data.Machine
import WindOs.Mm.Mapping

namespace WindOs.Mm

open Data

/-! # Any order of map, unmap, page faults and evictions

The machine has one directory.  Its callers map pages that `alloc_page` has handed out
to them, at user addresses, and a page fault comes from a page that is not present.
-/

/-- The machine with the blocks that are handed out: first page and length. -/
structure VmState where
  pg : Paging
  blocks : List (Nat × Nat)

inductive VmOp where
  | alloc (n : Nat)
  | free (page : PagePtr) (n : Nat)
  | fault (cr2 : Nat) (isWrite : Bool)
  | swapIn (v : Nat)
  | swapOut (n : Nat)
  | map (la page bitsign : Nat)
  | unmap (la : Nat)
  | access (la : Nat)
  | loadCr3
deriving DecidableEq, Repr

instance (v : Nat) : Decidable (UserPage v) := inferInstanceAs (Decidable (_ ∧ _))

instance (block : Nat × Nat) (page : Nat) : Decidable (PageState.InBlock block page) :=
  inferInstanceAs (Decidable (_ ∧ _))

namespace VmState

/-- The blocks of which `map` or `unmap` has given back no page. -/
def remaining (before after : Paging) (blocks : List (Nat × Nat)) : List (Nat × Nat) :=
  blocks.filter fun block => (List.range' block.1 block.2).all fun q =>
    ¬ (before.ref (before.base + q) = 1 ∧ after.ref (before.base + q) = 0)

section Steps

variable [Aliases]

/-- `alloc_page(1)` as `get_pte`, `do_swap` and `swap_in` call it. -/
def allocOne (pg : Paging) : Except Halt (Option Nat × Paging) := pg.allocPage 1

/-- Only `map` and `unmap` may give back a page that is handed out.  A page to which `alloc_page`
returns a pointer that leads nowhere is in nobody's hands. -/
def step (state : VmState) : VmOp → Option VmState
  | .alloc n =>
      if 1 ≤ n then
        (state.pg.allocPage n).toOption.map fun result =>
          match result.1 with
          | none => { state with pg := result.2 }
          | some frame =>
              if Aliases.wild state.pg.area (frame - state.pg.base) then { state with pg := result.2 }
              else { pg := result.2, blocks := (frame - state.pg.base, n) :: state.blocks }
      else none
  | .free page n =>
      if state.blocks.contains (page.page, n) then
        (state.pg.freePage (state.pg.base + page.page) n page.raised).toOption.map fun pg =>
          { pg, blocks := state.blocks.erase (page.page, n) }
      else none
  | .fault cr2 isWrite =>
      if UserPage (cr2 / pageSize) ∧ ¬ Entry.Present (state.pg.pte (cr2 / pageSize)) then
        (state.pg.doSwap allocOne cr2 isWrite).toOption.map fun pg => { state with pg }
      else none
  | .swapIn v =>
      if UserPage v ∧ ¬ Entry.Present (state.pg.pte v) then
        (state.pg.swapIn allocOne (pageSize * v)).toOption.map fun pg => { state with pg }
      else none
  | .swapOut n => (state.pg.swapOut n).toOption.map fun pg => { state with pg }
  | .map la page bitsign =>
      if UserPage (la / pageSize) ∧ ∃ block ∈ state.blocks, PageState.InBlock block page then
        (state.pg.map allocOne state.pg.pde la (state.pg.base + page) bitsign).toOption.map fun pg =>
          { pg, blocks := remaining state.pg pg state.blocks }
      else none
  | .unmap la =>
      if UserPage (la / pageSize) then
        (state.pg.unmap state.pg.pde la).toOption.map fun pg =>
          { pg, blocks := remaining state.pg pg state.blocks }
      else none
  | .access la =>
      if la < 2 ^ 32 ∧ Entry.Present (state.pg.pte (la / pageSize)) then
        some { state with pg := { state.pg with
          tlb := Function.update state.pg.tlb (la / pageSize) (state.pg.pte (la / pageSize)) } }
      else none
  | .loadCr3 => some { state with pg := { state.pg with tlb := fun _ => none } }

end Steps

/-- After `vmm_init` no user page is mapped and no page is queued. -/
structure Start (state : VmState) : Prop where
  inited : state.pg.isVmmInited = true
  mapping : state.pg.Mapping
  tables : ∀ i, UserTable i → ¬ state.pg.HasTable i
  queues : ∃ free, PageState.Queues state.pg.count { area := state.pg.area, blocks := state.blocks }
      free [] ∧
    ∀ p, p ∈ free ∨ Covered PageState.InBlock state.blocks p → state.pg.NotTable (state.pg.base + p)
  ref : ∀ p < state.pg.count, state.pg.NotTable (state.pg.base + p) → state.pg.ref (state.pg.base + p) = 0
  tlb : ∀ v, state.pg.tlb v = none

def machine [Aliases] : Machine VmState VmOp where
  start := Start
  step := step

/-- A pool of four pages and one VMA of two. -/
def fourFrames : VmState where
  pg :=
    { memory := fun _ => Bytes.zero
      disk := fun _ => Bytes.zero
      ref := fun _ => 0
      va := fun _ => 0
      area :=
        { FreeArea.pageInit { next := id, prev := id } 4 with
          nodes := listInit (FreeArea.pageInit { next := id, prev := id } 4).nodes .vmFifo }
      count := 4
      base := 16
      isVmmInited := true
      mm := VmaList.oneVma { vmmStart := 0x400000, vmmEnd := 0x402000, flags := 7 }
      pde := 1
      tlb := fun _ => none }
  blocks := []

theorem fourFrames_start : Start fourFrames := by
  have missing : ∀ i, ¬ fourFrames.pg.HasTable i := by
    intro i
    have zero : fourFrames.pg.entry 1 i = 0 := Bytes.word_zero
    show ¬ Entry.Present (fourFrames.pg.entry 1 i)
    rw [zero]
    exact Entry.not_present_zero
  have absent : ∀ v, ¬ Entry.Present (fourFrames.pg.pte v) := by
    intro v present
    exact missing _ (Paging.hasTable_of_present present)
  constructor
  · rfl
  · exact ⟨fun i _ has => absurd has (missing i), fun i _ _ _ has => absurd has (missing i),
      fun v _ present => absurd present (absent v), fun p _ present => absurd present (absent _),
      by decide⟩
  · exact fun i _ => missing i
  · refine ⟨_, .init (.init _), ?_⟩
    intro p _
    refine ⟨?_, fun i _ has => absurd has (missing i)⟩
    show 16 + p ≠ 1
    omega
  · exact fun _ _ _ => rfl
  · exact fun _ => rfl

end VmState

namespace Entry

variable {entry page sign : Nat}

/-- What `unmap` leaves of an entry, and what `map` makes of it. -/
def cleared (entry : Nat) : Nat := setSign (setAddr entry 0) 0

def mapped (entry page sign : Nat) : Nat := setAddr (setSign entry sign) page

theorem cleared_absent : ¬ Present (cleared entry) := by
  simp only [present_iff, cleared, setSign, setAddr]
  omega

theorem cleared_lt : cleared entry < 2 ^ 32 := setSign_lt set_lt

end Entry

namespace Paging

variable {pg after middle : Paging} {blocks : List (Nat × Nat)} {frame v n la page sign : Nat}

section Pointers

variable [Aliases]

/-- When there is no page to be had nothing is done. -/
theorem allocPage_none (refused : pg.allocPage n = .ok (none, after)) : after = pg := by
  unfold allocPage at refused
  cases searched : pg.area.allocPage (pg.count + 1) n with
  | none =>
      rw [searched] at refused
      cases refused
  | some result =>
      obtain ⟨found, area⟩ := result
      cases found with
      | some p =>
          have called := allocPage_served searched
          unfold allocPage at called
          rw [called] at refused
          obtain ⟨_, -, returned⟩ := ok_of_bind refused
          cases returned
      | none =>
          rw [searched] at refused
          cases refused
          have same : area = pg.area := by
            unfold FreeArea.allocPage at searched
            split at searched
            · cases searched
              rfl
            · obtain ⟨result, -, equal⟩ := Option.map_eq_some_iff.mp searched
              cases result with
              | none =>
                  cases equal
                  rfl
              | some p => cases equal
          rw [same]

theorem dropRef_ok (done : pg.dropRef page = .ok after) :
    ∃ area, after = { pg with ref := Function.update pg.ref page (pg.ref page - 1), area } ∧
      (pg.ref page = 1 → Aliases.freePage (pg.count + 1) pg.area ⟨page - pg.base, false⟩ 1 =
        some area) ∧
      (pg.ref page ≠ 1 → area = pg.area) := by
  have self : Function.update pg.ref page (pg.ref page - 1) page = pg.ref page - 1 :=
    Function.update_self _ _ _
  unfold dropRef at done
  simp only [self] at done
  by_cases last : pg.ref page = 1
  · rw [if_pos (by omega)] at done
    unfold freePage at done
    cases freed : Aliases.freePage (pg.count + 1) pg.area ⟨page - pg.base, false⟩ 1 with
    | none =>
        simp only [freed] at done
        cases done
    | some area =>
        simp only [freed] at done
        cases done
        exact ⟨area, rfl, fun _ => rfl, fun other => absurd last other⟩
  · rw [if_neg (by omega)] at done
    cases done
    exact ⟨pg.area, rfl, fun same => absurd same last, fun _ => rfl⟩

/-- `unmap` of a page that is mapped. -/
theorem unmap_present (here : la / 2 ^ 12 = v) (present : Entry.Present (pg.pte v)) :
    pg.unmap pg.pde la = pg.dropRef (Entry.addr (pg.pte v)) >>= fun dropped =>
      .ok ((dropped.setEntry (pg.table (v / 2 ^ 10)) (v % 2 ^ 10)
        (Entry.cleared (pg.pte v))).invlpg la) := by
  have has := hasTable_of_present present
  unfold unmap
  rw [lookupPte_of_table has here]
  change (if Entry.Present (pg.entry (pg.table (v / 2 ^ 10)) (v % 2 ^ 10)) then _ else _) = _
  rw [← pte_of_table has, if_pos present]
  cases drop : pg.dropRef (Entry.addr (pg.pte v)) with
  | error halt => rfl
  | ok dropped =>
      obtain ⟨area, rfl, -⟩ := dropRef_ok drop
      change Except.ok (Paging.invlpg (Paging.setEntry _ _ _ _) la) = _
      rw [setEntry_setEntry, entry_setEntry_self Entry.set_lt, pte_of_table has, Entry.cleared]
      rfl

theorem unmap_ok (done : pg.unmap pg.pde la = .ok after) (here : la / 2 ^ 12 = v) :
    ¬ Entry.Present (pg.pte v) ∧ after = pg ∨
      Entry.Present (pg.pte v) ∧ ∃ dropped, pg.dropRef (Entry.addr (pg.pte v)) = .ok dropped ∧
        after = (dropped.setEntry (pg.table (v / 2 ^ 10)) (v % 2 ^ 10)
          (Entry.cleared (pg.pte v))).invlpg la := by
  by_cases present : Entry.Present (pg.pte v)
  · rw [unmap_present here present] at done
    obtain ⟨dropped, drop, ended⟩ := ok_of_bind done
    cases ended
    exact .inr ⟨present, dropped, drop, rfl⟩
  · unfold unmap at done
    by_cases has : pg.HasTable (v / 2 ^ 10)
    · rw [lookupPte_of_table has here] at done
      change (if Entry.Present (pg.entry (pg.table (v / 2 ^ 10)) (v % 2 ^ 10)) then _ else _) = _
        at done
      rw [← pte_of_table has, if_neg present] at done
      cases done
      exact .inl ⟨present, rfl⟩
    · rw [lookupPte_of_missing has here] at done
      cases done

theorem Mapping.unmap (mapping : pg.Mapping) (here : la / 2 ^ 12 = v) (small : v < 2 ^ 20)
    (done : pg.unmap pg.pde la = .ok after) : after.Mapping ∧ Settled pg after := by
  rcases unmap_ok done here with ⟨-, rfl⟩ | ⟨present, dropped, drop, rfl⟩
  · exact ⟨mapping, .refl _⟩
  · obtain ⟨area, rfl, -⟩ := dropRef_ok drop
    have table := mapping.notDirectory (v / 2 ^ 10) (by omega) (hasTable_of_present present)
    obtain ⟨cleared, settled⟩ := @Mapping.setAbsent pg (pg.table (v / 2 ^ 10)) (v % 2 ^ 10) _ mapping
      table (@Entry.cleared_lt (pg.pte v)) Entry.cleared_absent
    exact ⟨cleared.of_memory rfl rfl rfl rfl, settled.trans (.of_memory rfl rfl rfl rfl)⟩

section Alloc

variable {alloc : Paging → Except Halt (Option Nat × Paging)} {pte : Option (Nat × Nat)}

theorem getPte_ok (done : pg.getPte alloc pg.pde la = .ok (pte, after)) (here : la / 2 ^ 12 = v) :
    pg.HasTable (v / 2 ^ 10) ∧ pte = some (pg.table (v / 2 ^ 10), v % 2 ^ 10) ∧ after = pg ∨
      ¬ pg.HasTable (v / 2 ^ 10) ∧ pte = none ∧ alloc pg = .ok (none, after) ∨
      ¬ pg.HasTable (v / 2 ^ 10) ∧ ∃ frame middle, alloc pg = .ok (some frame, middle) ∧
        after = middle.newTable pg.pde (v / 2 ^ 10) frame ∧
        pte = some (Entry.addr (after.entry pg.pde (v / 2 ^ 10)), v % 2 ^ 10) := by
  by_cases has : pg.HasTable (v / 2 ^ 10)
  · rw [getPte_of_table has here] at done
    cases done
    exact .inl ⟨has, rfl, rfl⟩
  · have index : la / 2 ^ 22 = v / 2 ^ 10 := by omega
    have missing : ¬ Entry.Present (pg.entry pg.pde (v / 2 ^ 10)) := has
    unfold getPte at done
    rw [index, if_neg missing, here] at done
    obtain ⟨⟨found, middle⟩, allocated, ended⟩ := ok_of_bind done
    cases found with
    | none =>
        cases ended
        exact .inr (.inl ⟨has, rfl, allocated⟩)
    | some frame =>
        obtain ⟨_, -, ended⟩ := ok_of_bind ended
        cases ended
        exact .inr (.inr ⟨has, frame, middle, allocated, rfl, rfl⟩)

/-- Once there is a table `map` goes on as if it had always been there. -/
theorem map_of_getPte (got : pg.getPte alloc pg.pde la =
      .ok (some (after.table (v / 2 ^ 10), v % 2 ^ 10), after))
    (has : after.HasTable (v / 2 ^ 10)) (here : la / 2 ^ 12 = v) (pde : after.pde = pg.pde) :
    pg.map alloc pg.pde la page sign = after.map alloc after.pde la page sign := by
  unfold map
  rw [got, getPte_of_table has here, pde]

/-- `map` at an entry that is present. -/
theorem map_present (has : pg.HasTable (v / 2 ^ 10)) (here : la / 2 ^ 12 = v)
    (present : Entry.Present (pg.pte v)) :
    let counted := { pg with ref := Function.update pg.ref page (pg.ref page + 1) }
    pg.map alloc pg.pde la page sign =
      if Entry.addr (pg.pte v) = page then
        .ok ((pg.setEntry (pg.table (v / 2 ^ 10)) (v % 2 ^ 10)
          (Entry.mapped (pg.pte v) page sign)).invlpg la)
      else counted.unmap counted.pde (Entry.getPgAddrLa (pg.pte v)) >>= fun unmapped =>
        .ok ((unmapped.setEntry (pg.table (v / 2 ^ 10)) (v % 2 ^ 10) (Entry.mapped
          (unmapped.entry (pg.table (v / 2 ^ 10)) (v % 2 ^ 10)) page sign)).invlpg la) := by
  intro counted
  have word : counted.entry (pg.table (v / 2 ^ 10)) (v % 2 ^ 10) = pg.pte v := (pte_of_table has).symm
  have written : ∀ middle : Paging, (middle.setEntry (pg.table (v / 2 ^ 10)) (v % 2 ^ 10)
        (Entry.setSign (middle.entry (pg.table (v / 2 ^ 10)) (v % 2 ^ 10)) sign)).setEntry
        (pg.table (v / 2 ^ 10)) (v % 2 ^ 10) (Entry.setAddr ((middle.setEntry
          (pg.table (v / 2 ^ 10)) (v % 2 ^ 10) (Entry.setSign
            (middle.entry (pg.table (v / 2 ^ 10)) (v % 2 ^ 10)) sign)).entry
              (pg.table (v / 2 ^ 10)) (v % 2 ^ 10)) page) =
      middle.setEntry (pg.table (v / 2 ^ 10)) (v % 2 ^ 10)
        (Entry.mapped (middle.entry (pg.table (v / 2 ^ 10)) (v % 2 ^ 10)) page sign) := by
    intro middle
    rw [setEntry_setEntry, entry_setEntry_self (Entry.setSign_lt entry_lt), Entry.mapped]
  unfold map
  rw [getPte_of_table has here]
  change (counted.replace pg.pde (pg.table (v / 2 ^ 10)) (v % 2 ^ 10) page >>= fun pg' => _) = _
  unfold Paging.replace
  rw [word, if_pos present]
  by_cases same : Entry.addr (pg.pte v) = page
  · rw [if_pos same, if_pos same]
    have back : Function.update counted.ref page (counted.ref page - 1) = pg.ref := by
      show Function.update (Function.update pg.ref page (pg.ref page + 1)) page
        (Function.update pg.ref page (pg.ref page + 1) page - 1) = pg.ref
      rw [Function.update_self, Function.update_idem]
      simp
    rw [back]
    change Except.ok (Paging.invlpg (Paging.setEntry _ _ _ _) la) = _
    rw [written]
    change Except.ok ((pg.setEntry _ _ (Entry.mapped (pg.entry _ _) page sign)).invlpg la) = _
    rw [← pte_of_table has]
  · rw [if_neg same, if_neg same]
    congr 1
    funext middle
    rw [written]

theorem map_ok (done : pg.map alloc pg.pde la page sign = .ok after)
    (has : pg.HasTable (v / 2 ^ 10)) (here : la / 2 ^ 12 = v) :
    let counted := { pg with ref := Function.update pg.ref page (pg.ref page + 1) }
    ¬ Entry.Present (pg.pte v) ∧
        after = (counted.setEntry (pg.table (v / 2 ^ 10)) (v % 2 ^ 10)
          (Entry.mapped (pg.pte v) page sign)).invlpg la ∨
      Entry.Present (pg.pte v) ∧ Entry.addr (pg.pte v) = page ∧
        after = (pg.setEntry (pg.table (v / 2 ^ 10)) (v % 2 ^ 10)
          (Entry.mapped (pg.pte v) page sign)).invlpg la ∨
      Entry.Present (pg.pte v) ∧ Entry.addr (pg.pte v) ≠ page ∧ ∃ unmapped,
        counted.unmap counted.pde (Entry.getPgAddrLa (pg.pte v)) = .ok unmapped ∧
        after = (unmapped.setEntry (pg.table (v / 2 ^ 10)) (v % 2 ^ 10) (Entry.mapped
          (unmapped.entry (pg.table (v / 2 ^ 10)) (v % 2 ^ 10)) page sign)).invlpg la := by
  intro counted
  by_cases present : Entry.Present (pg.pte v)
  · right
    rw [map_present has here present] at done
    by_cases same : Entry.addr (pg.pte v) = page
    · rw [if_pos same] at done
      cases done
      exact .inl ⟨present, same, rfl⟩
    · rw [if_neg same] at done
      obtain ⟨unmapped, unmap, ended⟩ := ok_of_bind done
      cases ended
      exact .inr ⟨present, same, unmapped, unmap, rfl⟩
  · left
    rw [map_absent has here present] at done
    cases done
    exact ⟨present, rfl⟩

end Alloc

end Pointers

end Paging

end WindOs.Mm
