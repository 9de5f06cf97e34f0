import WindOs.Mm.PageLists

namespace WindOs.Mm

open Data

/-! # The cached translations

`map` and `unmap` end with `invlpg` of the address they were called with.  `swap_out`
has none, and the page that `map` unmaps on the way may be mapped in a second place.
-/

namespace Paging

open VmState PageState

variable {pg after : Paging} {blocks rest : List (Nat × Nat)} {free fifo front back : List Nat}
  {frame k i n p q u v w la page sign : Nat}

/-- What is cached is what the tables say. -/
def Coherent (pg : Paging) : Prop :=
  ∀ v w, pg.tlb v = some w → v < 2 ^ 20 ∧ Entry.Present w ∧ pg.pte v = w

/-- The translations of these pages are not cached. -/
def Uncached (pg : Paging) (pages : List Nat) : Prop :=
  ∀ p ∈ pages, pg.tlb (pg.va (pg.base + p) / pageSize) = none

/-- The two pages are read from one entry. -/
def SharesEntry (pg : Paging) (u v : Nat) : Prop :=
  pg.HasTable (u / 2 ^ 10) ∧ pg.table (u / 2 ^ 10) = pg.table (v / 2 ^ 10) ∧ u % 2 ^ 10 = v % 2 ^ 10

/-- The pages that `swap_out` evicts from `back` on, where `front` has been passed. -/
def victims : Nat → List Nat → List Nat → List Nat
  | 0, _, _ => []
  | _, _, [] => []
  | n + 1, front, [p] => p :: victims n [] front
  | n + 1, front, p :: q :: back => p :: victims n (front ++ [q]) back

namespace Coherent

/-- Entries of cached pages stay, or what was cached is dropped. -/
theorem congr (coherent : pg.Coherent)
    (cached : ∀ v w, after.tlb v = some w → pg.tlb v = some w ∧ after.pte v = pg.pte v) :
    after.Coherent := by
  intro v w found
  obtain ⟨before, same⟩ := cached v w found
  obtain ⟨small, present, word⟩ := coherent v w before
  exact ⟨small, present, same.trans word⟩

/-- A page that is not cached is evicted. -/
theorem evict {later : List Nat} (coherent : pg.Coherent)
    (ordered : pg.Ordered blocks free (front ++ p :: back)) (uncached : pg.Uncached (p :: later))
    (done : pg.evict (pg.base + p) = .ok after) : after.Coherent ∧ after.Uncached later := by
  obtain ⟨u, area, -, user, placed, has, rfl, -, -⟩ := ordered.evict done
  have unseen := uncached p (by simp)
  have page : pageSize * u / pageSize = u := by
    simp only [pageSize]
    omega
  rw [placed, page] at unseen
  refine ⟨coherent.congr ?_, fun q member => uncached q (List.mem_cons_of_mem _ member)⟩
  intro v w found
  have different : v ≠ u := by
    rintro rfl
    rw [show (pg.toDisk v (pg.base + p) area).tlb v = pg.tlb v from rfl, unseen] at found
    cases found
  have word := ordered.mapping.pte_setUser user has (slotWord_lt user) (coherent v w found).1
  rw [if_neg different] at word
  exact ⟨found, (pte_of_memory rfl rfl).trans word⟩

/-- An entry is written, and the page it belongs to is no longer cached. -/
theorem setEntry (coherent : pg.Coherent) (here : la / 2 ^ 12 = v)
    (different : pg.table (v / 2 ^ 10) ≠ pg.pde) (small : w < 2 ^ 32)
    (alone : ∀ u < 2 ^ 20, u ≠ v → pg.SharesEntry u v → pg.tlb u = none) :
    ((pg.setEntry (pg.table (v / 2 ^ 10)) (v % 2 ^ 10) w).invlpg la).Coherent := by
  refine coherent.congr ?_
  intro u w' found
  have page : la / pageSize = v := here
  change Function.update pg.tlb (la / pageSize) none u = some w' at found
  rw [page] at found
  have other : u ≠ v := by
    rintro rfl
    rw [Function.update_self] at found
    cases found
  rw [Function.update_of_ne other] at found
  refine ⟨found, ?_⟩
  have word := @pte_setEntry_slot pg (pg.table (v / 2 ^ 10)) (v % 2 ^ 10) u w different small
  refine (pte_of_memory rfl rfl).trans (word.trans (if_neg ?_))
  intro shares
  rw [alone u (coherent u w' found).1 other shares] at found
  cases found

theorem unmap (coherent : pg.Coherent) (mapping : pg.Mapping) (here : la / 2 ^ 12 = v)
    (small : v < 2 ^ 20)
    (alone : Entry.Present (pg.pte v) → ∀ u < 2 ^ 20, u ≠ v → pg.SharesEntry u v → pg.tlb u = none)
    (done : pg.unmap pg.pde la = .ok after) : after.Coherent := by
  rcases unmap_ok done here with ⟨-, rfl⟩ | ⟨present, dropped, drop, rfl⟩
  · exact coherent
  · obtain ⟨area, rfl, -⟩ := dropRef_ok drop
    have table := mapping.notDirectory (v / 2 ^ 10) (by omega) (hasTable_of_present present)
    have dropped : ∀ ref, Coherent { pg with ref, area } :=
      fun ref => coherent.congr (fun _ _ found => ⟨found, pte_of_memory rfl rfl⟩)
    exact (dropped _).setEntry here table Entry.cleared_lt (alone present)

end Coherent

/-- The entry of a user page is shared with no other. -/
theorem Mapping.alone (mapping : pg.Mapping) (user : UserPage v) (has : pg.HasTable (v / 2 ^ 10)) :
    ∀ u < 2 ^ 20, u ≠ v → pg.SharesEntry u v → pg.tlb u = none := by
  rintro u small different ⟨hasU, table, index⟩
  have tables := mapping.unshared _ (u / 2 ^ 10) user.table (by omega) has hasU table.symm
  omega

/-- `map` of a page of the pool, once there is a table. -/
theorem Coherent.map {alloc : Paging → Except Halt (Option Nat × Paging)} (coherent : pg.Coherent)
    (mapping : pg.Mapping) (user : UserPage v) (here : la / 2 ^ 12 = v)
    (has : pg.HasTable (v / 2 ^ 10))
    (alone : ∀ q, q ≠ p → Entry.Present (pg.pte v) → Entry.addr (pg.pte v) = pg.base + q →
      Entry.Present (pg.pte (directPage (pg.base + q))) → ∀ u < 2 ^ 20,
      u ≠ directPage (pg.base + q) → pg.SharesEntry u (directPage (pg.base + q)) → pg.tlb u = none)
    (done : pg.map alloc pg.pde la (pg.base + p) sign = .ok after) : after.Coherent := by
  have table := mapping.layout.notDirectory _ user.table has
  let counted := { pg with ref := Function.update pg.ref (pg.base + p) (pg.ref (pg.base + p) + 1) }
  have coherentCounted : counted.Coherent :=
    coherent.congr (fun _ _ found => ⟨found, pte_of_memory rfl rfl⟩)
  rcases map_ok done has here with ⟨-, rfl⟩ | ⟨-, -, rfl⟩ | ⟨present, different, unmapped, unmap, rfl⟩
  · exact coherentCounted.setEntry here table Entry.set_lt (mapping.alone user has)
  · exact coherent.setEntry here table Entry.set_lt (mapping.alone user has)
  · obtain ⟨q, below, address⟩ := mapping.pool v user present
    obtain ⟨direct, inside⟩ := Mapping.direct_la mapping below address
    have other : q ≠ p := fun same => different (same ▸ address)
    have mappingCounted : counted.Mapping := mapping.of_memory rfl rfl rfl rfl
    obtain ⟨mappingAfter, settled⟩ := mappingCounted.unmap direct inside unmap
    have coherentAfter := coherentCounted.unmap mappingCounted direct inside
      (alone q other present address) unmap
    have hasAfter := settled.tables.1.mpr has
    have tableAfter : unmapped.table (v / 2 ^ 10) = pg.table (v / 2 ^ 10) := settled.tables.2
    rw [← tableAfter]
    exact coherentAfter.setEntry here (mappingAfter.layout.notDirectory _ user.table hasAfter)
      Entry.set_lt (mappingAfter.alone user hasAfter)

/-- Ordered lists, coherent translations, and no cached translation of the pages that
are next to go. -/
def Cached (k : Nat) (pg : Paging) (blocks : List (Nat × Nat)) : Prop :=
  ∃ free fifo, pg.Ordered blocks free fifo ∧ pg.Coherent ∧ pg.Uncached (fifo.take k)

namespace Cached

theorem allocated (inv : Cached (k + 1) pg blocks)
    (done : pg.allocPage 1 = .ok (some frame, after)) :
    ∃ p, frame = after.base + p ∧ Cached k after ((p, 1) :: blocks) ∧ Settled pg after ∧
      after.NotTable frame ∧ frame < 2 ^ 20 := by
  obtain ⟨free, fifo, ordered, coherent, uncached⟩ := inv
  obtain ⟨p, left, area, place, taken, gone⟩ := ordered.allocPage_cases Nat.one_pos Keeper.takes_one done
  have settled : Settled pg { pg with area } := .of_memory rfl rfl rfl rfl
  have coherentTaken : { pg with area }.Coherent :=
    coherent.congr (fun _ _ found => ⟨found, pte_of_memory rfl rfl⟩)
  rcases gone with rfl | ⟨-, q, rest, rfl, evicted⟩
  · obtain ⟨-, notTable, narrow⟩ := taken.handed_out Nat.one_pos
    refine ⟨p, place, ⟨left, fifo, taken, coherentTaken, ?_⟩, settled, place ▸ notTable, place ▸ narrow⟩
    intro q member
    exact uncached q (List.take_subset_take_left _ (Nat.le_succ _) member)
  · obtain ⟨-, -, listed, -, -, -, -, kept, more⟩ := @Ordered.evict _ _ _ _ [] rest q _ _ taken evicted
    obtain ⟨coherentAfter, later⟩ := @Coherent.evict _ _ _ _ [] rest q _ coherentTaken taken uncached
      evicted
    obtain ⟨-, notTable, narrow⟩ := kept.handed_out Nat.one_pos
    exact ⟨p, place, ⟨listed, rest, kept, coherentAfter, later⟩, settled.trans more, place ▸ notTable,
      place ▸ narrow⟩

theorem installed {bytes : Bytes} {ref : Nat → Int} (inv : Cached k pg ((p, 1) :: blocks))
    (user : UserPage v) (has : pg.HasTable (v / 2 ^ 10)) :
    Cached 0 (pg.installed v (pg.base + p) sign bytes ref) blocks := by
  obtain ⟨free, fifo, ordered, coherent, -⟩ := inv
  obtain ⟨below, notTable, -⟩ := ordered.handed_out Nat.one_pos
  obtain ⟨-, -, words⟩ := @Mapping.installed pg p v bytes ref sign ordered.mapping notTable below user has
  refine ⟨free, _, ordered.installed user has, coherent.congr ?_, by simp [Uncached]⟩
  intro u w found
  have page : pageSize * v / pageSize = v := by
    simp only [pageSize]
    omega
  change Function.update pg.tlb (pageSize * v / pageSize) none u = some w at found
  rw [page] at found
  have other : u ≠ v := by
    rintro rfl
    rw [Function.update_self] at found
    cases found
  rw [Function.update_of_ne other] at found
  exact ⟨found, (words u (coherent u w found).1).trans (if_neg other)⟩

/-- None of the pages that `swap_out` evicts is cached. -/
theorem swapOut (ordered : pg.Ordered blocks free fifo) (coherent : pg.Coherent)
    (uncached : pg.Uncached (victims n [] fifo)) (done : pg.swapOut n = .ok after) :
    Cached 0 after blocks := by
  unfold Paging.swapOut at done
  cases ended : loop swapOutRound (n + 1) (.vmFifo, n, pg) with
  | none =>
      rw [ended] at done
      cases done
  | some result =>
      rw [ended] at done
      cases done
      obtain ⟨_, front, back, free, kept, coherent, -⟩ := @swapOut_rounds _ _ _
        (fun m front back pg' => ∃ free, pg'.Ordered blocks free (front ++ back) ∧ pg'.Coherent ∧
          pg'.Uncached (victims m front back))
        n (n + 1) [] fifo
        (fun inv => by
          obtain ⟨free, ordered, -⟩ := inv
          exact ordered.queues.ring)
        (fun inv evicted => by
          obtain ⟨free, ordered, coherent, uncached⟩ := inv
          obtain ⟨-, -, listed, -, -, -, -, kept, -⟩ := ordered.evict evicted
          obtain ⟨coherentAfter, later⟩ := coherent.evict ordered uncached evicted
          exact ⟨listed, by simpa using kept, coherentAfter, later⟩)
        (fun inv evicted => by
          obtain ⟨free, ordered, coherent, uncached⟩ := inv
          obtain ⟨-, -, listed, -, -, -, -, kept, -⟩ := ordered.evict evicted
          obtain ⟨coherentAfter, later⟩ := coherent.evict ordered uncached evicted
          exact ⟨listed, by simpa using kept, coherentAfter, later⟩)
        ⟨free, ordered, coherent, uncached⟩ ended
      exact ⟨free, front ++ back, kept, coherent, by simp [Uncached]⟩

theorem discipline : Discipline Cached fun k pg blocks p => Cached k pg ((p, 1) :: blocks) where
  fewer inv := by
    obtain ⟨free, fifo, ordered, coherent, uncached⟩ := inv
    refine ⟨free, fifo, ordered, coherent, ?_⟩
    intro p member
    exact uncached p (List.take_subset_take_left _ (Nat.le_succ _) member)
  searched mm inv := by
    obtain ⟨free, fifo, ordered, coherent, uncached⟩ := inv
    exact ⟨free, fifo, ordered.congr ⟨rfl, rfl, rfl, rfl⟩
      (ordered.mapping.of_memory rfl rfl rfl rfl) rfl rfl,
      coherent.congr (fun _ _ found => ⟨found, pte_of_memory rfl rfl⟩), uncached⟩
  allocated inv done := inv.allocated done
  newTable inv user missing := by
    obtain ⟨free, fifo, ordered, coherent, uncached⟩ := inv
    obtain ⟨-, notTable, narrow⟩ := ordered.handed_out Nat.one_pos
    refine ⟨free, fifo, ordered.newTable user missing, coherent.congr ?_, uncached⟩
    intro v w found
    exact ⟨found, ordered.mapping.newTable_pte notTable narrow missing (coherent v w found).1⟩
  installed inv user has _ _ := inv.installed user has

end Cached

end Paging

namespace VmState

open Paging PageState

variable {state next : VmState} {op : VmOp} {k : Nat}

/-- The first `k` pages of the queue are not cached. -/
def FirstUncached (pg : Paging) (k : Nat) : Prop :=
  ∀ fifo : List Nat, pg.area.nodes.IsRing .vmFifo (fifo.map .page) → pg.Uncached (fifo.take k)

/-- No page is evicted while its translation is cached, and no second mapping of a page
that `map` unmaps for the kernel is. -/
def DropsUncached (state : VmState) : VmOp → Prop
  | .alloc n => n = 1 → FirstUncached state.pg 1
  | .fault cr2 _ => FirstUncached state.pg (1 + state.pg.tableCost (cr2 / pageSize))
  | .swapIn _ => FirstUncached state.pg 1
  | .swapOut n => ∀ fifo : List Nat, state.pg.area.nodes.IsRing .vmFifo (fifo.map .page) →
      state.pg.Uncached (victims n [] fifo)
  | .map la page _ => FirstUncached state.pg (state.pg.tableCost (la / pageSize)) ∧
      ∀ p, p ≠ page → Entry.Present (state.pg.pte (la / pageSize)) →
        Entry.addr (state.pg.pte (la / pageSize)) = state.pg.base + p →
        Entry.Present (state.pg.pte (directPage (state.pg.base + p))) →
        ∀ u < 2 ^ 20, u ≠ directPage (state.pg.base + p) →
          state.pg.SharesEntry u (directPage (state.pg.base + p)) → state.pg.tlb u = none
  | _ => True

/-- Both conditions, on the lists and on what is cached. -/
def KeepsTlb (state : VmState) (op : VmOp) : Prop :=
  KeepsApart state op ∧ DropsUncached state op

theorem cached_of_first (inv : Cached 0 state.pg state.blocks) (first : FirstUncached state.pg k) :
    Cached k state.pg state.blocks := by
  obtain ⟨free, fifo, ordered, coherent, -⟩ := inv
  exact ⟨free, fifo, ordered, coherent, first fifo ordered.queues.ring⟩

theorem coherent_alloc {n : Nat} (inv : Cached 0 state.pg state.blocks)
    (allowed : DropsUncached state (.alloc n)) (moved : state.step (.alloc n) = some next) :
    next.pg.Coherent := by
  simp only [step] at moved
  split at moved
  · rename_i positive
    obtain ⟨⟨found, pg⟩, allocated, rfl⟩ := Option.map_eq_some_iff.mp moved
    have done := ok_of_toOption allocated
    cases found with
    | none =>
        obtain ⟨free, fifo, -, coherent, -⟩ := inv
        rw [allocPage_none done]
        exact coherent
    | some frame =>
        by_cases single : n = 1
        · subst single
          obtain ⟨p, -, ⟨_, _, -, coherent, -⟩, -⟩ := (cached_of_first inv (allowed rfl)).allocated done
          exact coherent
        · obtain ⟨free, fifo, ordered, coherent, -⟩ := inv
          obtain ⟨p, left, area, -, -, gone⟩ := ordered.allocPage_cases positive trivial done
          rcases gone with rfl | ⟨one, -⟩
          · exact coherent.congr (fun _ _ found => ⟨found, pte_of_memory rfl rfl⟩)
          · exact absurd one single
  · cases moved

theorem coherent_map {la page bitsign : Nat} (inv : Cached 0 state.pg state.blocks)
    (allowed : DropsUncached state (.map la page bitsign))
    (moved : state.step (.map la page bitsign) = some next) : next.pg.Coherent := by
  simp only [step] at moved
  split at moved
  · rename_i guard
    obtain ⟨user, -⟩ := guard
    obtain ⟨pg, mapped, rfl⟩ := Option.map_eq_some_iff.mp moved
    have done := ok_of_toOption mapped
    have here : la / 2 ^ 12 = la / pageSize := rfl
    have called := done
    unfold Paging.map at called
    obtain ⟨⟨pte, middle⟩, got, ended⟩ := ok_of_bind called
    have ready : Cached (0 + state.pg.tableCost (la / pageSize)) state.pg state.blocks := by
      rw [Nat.zero_add]
      exact cached_of_first inv allowed.1
    rcases Cached.discipline.getPte ready user here got with
      ⟨rfl, -⟩ | ⟨⟨free, fifo, ordered, coherent, -⟩, has, rfl, ⟨pde, base, count⟩, untouched⟩
    · cases ended
    · rw [map_of_getPte got has here pde, ← base] at done
      refine coherent.map ordered.mapping user here has ?_ done
      intro q other present
      rcases untouched with rfl | ⟨-, absent⟩
      · exact allowed.2 q other present
      · exact absurd present absent
  · cases moved

theorem coherent_step (inv : Cached 0 state.pg state.blocks) (allowed : DropsUncached state op)
    (moved : state.step op = some next) : next.pg.Coherent := by
  cases op with
  | alloc n => exact coherent_alloc inv allowed moved
  | free page n =>
      obtain ⟨free, fifo, -, coherent, -⟩ := inv
      simp only [step] at moved
      split at moved
      · obtain ⟨pg, freed, rfl⟩ := Option.map_eq_some_iff.mp moved
        have done := ok_of_toOption freed
        unfold freePage at done
        split at done
        · cases done
          exact coherent.congr (fun _ _ found => ⟨found, pte_of_memory rfl rfl⟩)
        · cases done
      · cases moved
  | fault cr2 isWrite =>
      simp only [step] at moved
      split at moved
      · rename_i guard
        obtain ⟨pg, faulted, rfl⟩ := Option.map_eq_some_iff.mp moved
        obtain ⟨_, _, -, coherent, -⟩ := Cached.discipline.doSwap (cached_of_first inv allowed) guard.1
          guard.2 (ok_of_toOption faulted)
        exact coherent
      · cases moved
  | swapIn v =>
      simp only [step] at moved
      split at moved
      · rename_i guard
        obtain ⟨pg, swapped, rfl⟩ := Option.map_eq_some_iff.mp moved
        obtain ⟨_, _, -, coherent, -⟩ := Cached.discipline.swapIn (cached_of_first inv allowed) guard.1
          guard.2 (ok_of_toOption swapped)
        exact coherent
      · cases moved
  | swapOut n =>
      obtain ⟨free, fifo, ordered, coherent, -⟩ := inv
      obtain ⟨pg, swapped, rfl⟩ := Option.map_eq_some_iff.mp moved
      obtain ⟨_, _, -, kept, -⟩ := Cached.swapOut ordered coherent (allowed fifo ordered.queues.ring)
        (ok_of_toOption swapped)
      exact kept
  | map la page bitsign => exact coherent_map inv allowed moved
  | unmap la =>
      obtain ⟨free, fifo, ordered, coherent, -⟩ := inv
      simp only [step] at moved
      split at moved
      · rename_i user
        obtain ⟨pg, unmapped, rfl⟩ := Option.map_eq_some_iff.mp moved
        exact coherent.unmap ordered.mapping rfl (user_small user)
          (fun present => ordered.mapping.alone user (hasTable_of_present present))
          (ok_of_toOption unmapped)
      · cases moved
  | access la =>
      obtain ⟨free, fifo, ordered, coherent, -⟩ := inv
      simp only [step] at moved
      split at moved
      · rename_i guard
        cases moved
        intro v w found
        change Function.update state.pg.tlb (la / pageSize) _ v = some w at found
        by_cases here : v = la / pageSize
        · rw [here, Function.update_self] at found
          cases found
          refine ⟨?_, guard.2, ?_⟩
          · simp only [here, pageSize]
            omega
          · rw [here]
            exact pte_of_memory rfl rfl
        · rw [Function.update_of_ne here] at found
          obtain ⟨small, present, word⟩ := coherent v w found
          exact ⟨small, present, (pte_of_memory rfl rfl).trans word⟩
      · cases moved
  | loadCr3 =>
      cases moved
      intro v w found
      cases found

/-- As long as nothing is dropped that is cached, every cached translation is the entry
that is in the tables, and a page that is not present is not cached. -/
theorem tlb_coherent (reached : machine.ReachableWithin KeepsTlb state) :
    (∀ v w, state.pg.tlb v = some w → state.pg.pte v = w ∧ Entry.Present w) ∧
      ∀ v, ¬ Entry.Present (state.pg.pte v) → state.pg.tlb v = none := by
  have inv : Cached 0 state.pg state.blocks := by
    refine @Machine.ReachableWithin.invariant _ _ _ _ (fun state => Cached 0 state.pg state.blocks)
      ?_ ?_ _ reached
    · intro state start
      obtain ⟨free, fifo, ordered⟩ := Start.inOrder start
      refine ⟨free, fifo, ordered, ?_, by simp [Uncached]⟩
      intro v w found
      rw [start.tlb] at found
      cases found
    · intro before op after inv allowed moved
      have coherent := coherent_step inv allowed.2 moved
      obtain ⟨free, fifo, ordered, -⟩ := inv
      obtain ⟨free, fifo, kept⟩ := InOrder.step ⟨free, fifo, ordered⟩ allowed.1 moved
      exact ⟨free, fifo, kept, coherent, by simp [Uncached]⟩
  obtain ⟨-, -, -, coherent, -⟩ := inv
  constructor
  · intro v w found
    obtain ⟨-, present, word⟩ := coherent v w found
    exact ⟨word, present⟩
  · intro v absent
    cases found : state.pg.tlb v with
    | none => rfl
    | some w =>
        obtain ⟨-, present, word⟩ := coherent v w found
        rw [word] at absent
        exact absurd present absent

/-- A page is touched, and its translation is cached. -/
theorem tlb_coherent_touched :
    ∃ state w, machine.run fourFrames [.fault 0x400000 false, .access 0x400000] = some state ∧
      state.pg.tlb 0x400 = some w ∧ state.pg.pte 0x400 = w ∧ Entry.Present w := by
  have runs : (machine.step fourFrames (.fault 0x400000 false)).any (fun first =>
      (machine.step first (.access 0x400000)).any fun second =>
        (second.pg.tlb 0x400).isSome) = true := by
    decide +kernel
  obtain ⟨first, faulted, checked⟩ := (Option.any_eq_true _ _).mp runs
  obtain ⟨second, accessed, cached⟩ := (Option.any_eq_true _ _).mp checked
  obtain ⟨w, found⟩ := Option.isSome_iff_exists.mp cached
  have empty : KeepsTlb fourFrames (.fault 0x400000 false) := ⟨trivial, fun _ _ _ _ => rfl⟩
  have nothing : KeepsTlb first (.access 0x400000) := ⟨trivial, trivial⟩
  have coherent := (tlb_coherent
    (.step (.step (.start fourFrames_start) empty faulted) nothing accessed)).1 0x400 w found
  refine ⟨second, w, ?_, found, coherent⟩
  simp [Machine.run_cons, faulted, accessed]

/-- A page is touched and cached, and `alloc_page` evicts it. -/
theorem evicted_page_cached :
    ¬ ∀ state, machine.Reachable state → ∀ v w, state.pg.tlb v = some w → state.pg.pte v = w := by
  intro always
  have runs : (machine.run fourFrames
      [.fault 0x400000 false, .access 0x400000, .alloc 1]).any (fun state =>
        (state.pg.tlb 0x400).any fun w => decide (state.pg.pte 0x400 ≠ w)) = true := by
    decide +kernel
  obtain ⟨state, ran, checked⟩ := (Option.any_eq_true _ _).mp runs
  obtain ⟨w, found, stale⟩ := (Option.any_eq_true _ _).mp checked
  exact decide_eq_true_eq.mp stale (always state (.run (.start fourFrames_start) ran) 0x400 w found)

end VmState

end WindOs.Mm
