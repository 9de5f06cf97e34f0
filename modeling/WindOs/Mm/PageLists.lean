import WindOs.Mm.FaultRule

namespace WindOs.Mm

open Data

/-! # A page is on one list at a time

Every way into one of the lists leads out of the other first, except for the page that
`unmap` gives back: nobody looks whether it is still queued.  How the free list is ordered
matters only where `alloc_page` unlinks the pages that follow the one it returns.
-/

namespace Paging

open VmState PageState

variable {pg after : Paging} {blocks rest : List (Nat × Nat)} {free fifo front back : List Nat}
  {frame k i n p q u v la page sign : Nat}

section Pointers

variable [Aliases]

theorem swapOut_first (first : pg.area.nodes.next .vmFifo = .page p)
    (evicted : pg.evict (pg.base + p) = .ok after) : pg.swapOut 1 = .ok after := by
  have round : swapOutRound (.vmFifo, 1, pg) = .inl (after.area.nodes.next .vmFifo, 0, after) := by
    simp only [swapOutRound, first, evicted, attempt]
  have ended : swapOutRound (after.area.nodes.next .vmFifo, 0, after) = .inr (.ok after) := by
    cases node : after.area.nodes.next (after.area.nodes.next .vmFifo) <;>
      simp only [swapOutRound, node]
  rw [Paging.swapOut, loop_next round, loop_exit ended]
  rfl

/-- `swap_out(mm, 1)` evicts the first page of the queue, if there is one. -/
theorem swapOut_one (ring : pg.area.nodes.IsRing .vmFifo (fifo.map .page))
    (done : pg.swapOut 1 = .ok after) :
    fifo = [] ∧ after = pg ∨
      ∃ p rest, fifo = p :: rest ∧ pg.evict (pg.base + p) = .ok after := by
  have next := ring.next_head
  unfold Paging.swapOut at done
  cases fifo with
  | nil =>
      have empty : pg.area.nodes.next .vmFifo = .vmFifo := next
      have ended : swapOutRound (.vmFifo, 1, pg) = .inr (.ok pg) := by
        simp only [swapOutRound, empty]
      rw [loop_exit ended] at done
      cases done
      exact .inl ⟨rfl, rfl⟩
  | cons p rest =>
      have first : pg.area.nodes.next .vmFifo = .page p := next
      cases evicted : pg.evict (pg.base + p) with
      | error halt =>
          have ended : swapOutRound (.vmFifo, 1, pg) = .inr (.error halt) := by
            simp only [swapOutRound, first, evicted, attempt]
          rw [loop_exit ended] at done
          cases done
      | ok middle =>
          rw [← Paging.swapOut, swapOut_first first evicted] at done
          cases done
          exact .inr ⟨p, rest, rfl, evicted⟩

variable [Keeper]

/-- The lists are apart, and neither holds a page that is used as a table. -/
structure Ordered (pg : Paging) (blocks : List (Nat × Nat)) (free fifo : List Nat) : Prop where
  mapping : pg.Mapping
  queues : Keeper.InOrder pg.count { area := pg.area, blocks } free fifo
  reserved : ∀ p, p ∈ free ∨ p ∈ fifo ∨ Covered InBlock blocks p → pg.NotTable (pg.base + p)
  placed : ∀ p ∈ fifo, ∃ u, UserPage u ∧ pg.va (pg.base + p) = pageSize * u

namespace Ordered

theorem rings (ordered : pg.Ordered blocks free fifo) :
    Rings pg.count { area := pg.area, blocks } free fifo := Keeper.rings ordered.queues

/-- Whatever is not in the lists, the tables or the addresses of the pages may change. -/
theorem congr (ordered : pg.Ordered blocks free fifo) (same : SameTables pg after)
    (mapping : after.Mapping) (area : after.area = pg.area) (va : after.va = pg.va) :
    after.Ordered blocks free fifo where
  mapping := mapping
  queues := by
    rw [same.count, area]
    exact ordered.queues
  reserved p member := by
    rw [same.notTable, same.base]
    exact ordered.reserved p member
  placed p member := by
    rw [va, same.base]
    exact ordered.placed p member

theorem forget (ordered : pg.Ordered blocks free fifo) (fewer : rest.Sublist blocks) :
    pg.Ordered rest free fifo where
  mapping := ordered.mapping
  queues := Keeper.forget ordered.queues fewer
  reserved p member := by
    apply ordered.reserved
    rcases member with inFree | inFifo | ⟨block, inside, holds⟩
    · exact .inl inFree
    · exact .inr (.inl inFifo)
    · exact .inr (.inr ⟨block, fewer.subset inside, holds⟩)
  placed := ordered.placed

/-- A page of the queue is evicted. -/
theorem evict (ordered : pg.Ordered blocks free (front ++ p :: back))
    (done : pg.evict (pg.base + p) = .ok after) :
    ∃ u area listed, UserPage u ∧ pg.va (pg.base + p) = pageSize * u ∧ pg.HasTable (u / 2 ^ 10) ∧
      after = pg.toDisk u (pg.base + p) area ∧ after.Ordered blocks listed (front ++ back) ∧
      Settled pg after := by
  obtain ⟨u, user, placed⟩ := ordered.placed p (by simp)
  by_cases has : pg.HasTable (u / 2 ^ 10)
  · obtain ⟨area, listed, evicted, queues, members, -⟩ := evict_eq ordered.queues placed user has
    rw [evicted] at done
    cases done
    obtain ⟨mapping, settled⟩ := @Mapping.setAbsent pg (pg.table (u / 2 ^ 10)) (u % 2 ^ 10) _
      ordered.mapping (ordered.mapping.layout.notDirectory _ user.table has) (slotWord_lt user)
      slotWord_absent
    have whole : Settled pg (pg.toDisk u (pg.base + p) area) :=
      settled.trans (Settled.of_memory rfl rfl rfl rfl)
    refine ⟨u, area, listed, user, placed, has, rfl, ⟨mapping.of_memory rfl rfl rfl rfl,
      queues, ?_, ?_⟩, whole⟩
    · intro q member
      rw [whole.notTable]
      apply ordered.reserved
      simp only [List.mem_append, List.mem_cons] at member ⊢
      rcases member with inList | inFifo | held
      · have before := ((members q).mp inList).2
        tauto
      · tauto
      · exact .inr (.inr held)
    · intro q member
      apply ordered.placed
      simp only [List.mem_append, List.mem_cons] at member ⊢
      tauto
  · exfalso
    unfold Paging.evict at done
    rw [placed, lookupPte_of_missing has page_of_la] at done
    cases done

theorem swapOut (ordered : pg.Ordered blocks free fifo) (done : pg.swapOut n = .ok after) :
    ∃ free fifo, after.Ordered blocks free fifo ∧ Settled pg after := by
  unfold Paging.swapOut at done
  cases ended : loop swapOutRound (n + 1) (.vmFifo, n, pg) with
  | none =>
      rw [ended] at done
      cases done
  | some result =>
      rw [ended] at done
      cases done
      obtain ⟨_, front, back, free, kept⟩ := @swapOut_rounds _ _ _
        (fun _ front back pg' => ∃ free, pg'.Ordered blocks free (front ++ back) ∧ Settled pg pg')
        n (n + 1) [] fifo
        (fun inv => by
          obtain ⟨free, ordered, -⟩ := inv
          exact ordered.rings.queue)
        (fun inv evicted => by
          obtain ⟨free, ordered, settled⟩ := inv
          obtain ⟨-, -, listed, -, -, -, -, kept, more⟩ := ordered.evict evicted
          exact ⟨listed, by simpa using kept, settled.trans more⟩)
        (fun inv evicted => by
          obtain ⟨free, ordered, settled⟩ := inv
          obtain ⟨-, -, listed, -, -, -, -, kept, more⟩ := ordered.evict evicted
          exact ⟨listed, by simpa using kept, settled.trans more⟩)
        ⟨free, ordered, .refl pg⟩ ended
      exact ⟨free, front ++ back, kept⟩

/-- A run of pages is taken from the free list, and the first page of the queue may go. -/
theorem allocPage_cases (ordered : pg.Ordered blocks free fifo) (positive : 0 < n)
    (takes : Keeper.Takes pg.area n) (done : pg.allocPage n = .ok (some frame, after)) :
    ∃ p left area, frame = after.base + p ∧ { pg with area }.Ordered ((p, n) :: blocks) left fifo ∧
      (after = { pg with area } ∨ n = 1 ∧ ∃ q rest, fifo = q :: rest ∧
        { pg with area }.evict (pg.base + q) = .ok after) := by
  rcases Keeper.alloc ordered.queues positive takes with refused | ⟨p, left, area, whole, served, queues⟩
  · rw [allocPage_refused refused] at done
    cases done
  · have taken : { pg with area }.Ordered ((p, n) :: blocks) left fifo := by
      refine ⟨ordered.mapping.of_memory rfl rfl rfl rfl, queues, ?_, ordered.placed⟩
      intro q member
      apply ordered.reserved
      rw [whole, List.mem_append]
      rcases member with inLeft | inFifo | ⟨block, inside, holds⟩
      · exact .inl (.inr inLeft)
      · exact .inr (.inl inFifo)
      · cases List.mem_cons.mp inside with
        | inl new => exact .inl (.inl (mem_block.mp (new ▸ holds)))
        | inr old => exact .inr (.inr ⟨block, old, holds⟩)
    rw [allocPage_served served] at done
    obtain ⟨swapped, swap, ended⟩ := ok_of_bind done
    cases ended
    split at swap
    · rename_i evicts
      exact ⟨p, left, area, rfl, taken,
        (swapOut_one taken.rings.queue swap).imp And.right fun found => ⟨evicts.2, found⟩⟩
    · cases swap
      exact ⟨p, left, area, rfl, taken, .inl rfl⟩

theorem allocPage (ordered : pg.Ordered blocks free fifo) (positive : 0 < n)
    (takes : Keeper.Takes pg.area n) (done : pg.allocPage n = .ok (some frame, after)) :
    ∃ p free fifo, frame = after.base + p ∧ after.Ordered ((p, n) :: blocks) free fifo ∧
      Settled pg after := by
  obtain ⟨p, left, area, place, taken, same | ⟨-, q, rest, rfl, evicted⟩⟩ :=
    ordered.allocPage_cases positive takes done
  · subst same
    exact ⟨p, left, fifo, place, taken, .of_memory rfl rfl rfl rfl⟩
  · have settled : Settled pg { pg with area } := .of_memory rfl rfl rfl rfl
    obtain ⟨-, -, listed, -, -, -, -, kept, more⟩ := @evict _ _ _ _ [] rest q _ _ taken evicted
    exact ⟨p, listed, rest, place, kept, settled.trans more⟩

/-- A page that is handed out is a frame and no table. -/
theorem handed_out (ordered : pg.Ordered ((p, n) :: blocks) free fifo) (positive : 0 < n) :
    p < pg.count ∧ pg.NotTable (pg.base + p) ∧ pg.base + p < 2 ^ 20 := by
  have self : InBlock (p, n) p := ⟨Nat.le_refl _, Nat.lt_add_of_pos_right positive⟩
  have below := (ordered.rings.outside (p, n) (by simp) p self).2
  have room := ordered.mapping.room
  exact ⟨below, ordered.reserved p (.inr (.inr ⟨(p, n), by simp, self⟩)), by omega⟩

/-- The page is nowhere else. -/
theorem handed_out_once (ordered : pg.Ordered ((p, 1) :: blocks) free fifo)
    (member : q ∈ free ∨ q ∈ fifo ∨ Covered InBlock blocks q) : q ≠ p := by
  have self : InBlock (p, 1) p := ⟨Nat.le_refl _, Nat.lt_succ_self _⟩
  rintro rfl
  rcases member with inFree | inFifo | ⟨block, inside, holds⟩
  · exact (ordered.rings.outside (q, 1) (by simp) q self).1 inFree
  · exact ordered.rings.unheld q inFifo (q, 1) (by simp) self
  · exact (List.pairwise_cons.mp ordered.rings.disjoint).1 block inside q self holds

theorem newTable (ordered : pg.Ordered ((p, 1) :: blocks) free fifo) (user : UserTable i)
    (missing : ¬ pg.HasTable i) :
    (pg.newTable pg.pde i (pg.base + p)).Ordered blocks free fifo := by
  obtain ⟨-, notTable, narrow⟩ := ordered.handed_out Nat.one_pos
  have index : i < 1024 := by
    simp only [UserTable] at user
    omega
  have fewer := ordered.forget (List.sublist_cons_self (p, 1) blocks)
  refine ⟨ordered.mapping.newTable notTable narrow missing, fewer.queues, ?_, ordered.placed⟩
  intro q member
  have different := ordered.handed_out_once member
  refine (Mapping.newTable_notTable notTable narrow missing index).mpr ⟨?_, fewer.reserved q member⟩
  show pg.base + q ≠ pg.base + p
  omega

theorem installed {bytes : Bytes} {ref : Nat → Int} (ordered : pg.Ordered ((p, 1) :: blocks) free fifo)
    (user : UserPage v) (has : pg.HasTable (v / 2 ^ 10)) :
    (pg.installed v (pg.base + p) sign bytes ref).Ordered blocks free (fifo ++ [p]) := by
  obtain ⟨below, notTable, narrow⟩ := ordered.handed_out Nat.one_pos
  obtain ⟨mapping, same, -⟩ := @Mapping.installed pg p v bytes ref sign ordered.mapping notTable
    below user has
  have others : ∀ q ∈ fifo ++ [p], q ∈ fifo ∨ q = p := by simp
  refine ⟨mapping, ?_, ?_, ?_⟩
  · have queued := Keeper.enqueue ordered.queues
    have index : pg.base + p - pg.base = p := Nat.add_sub_cancel_left ..
    simp only [Paging.installed, index]
    exact queued
  · intro q member
    have before : pg.NotTable (pg.base + q) := by
      rcases member with inFree | inFifo | ⟨block, inside, holds⟩
      · exact ordered.reserved q (.inl inFree)
      · cases others q inFifo with
        | inl old => exact ordered.reserved q (.inr (.inl old))
        | inr new => exact new ▸ notTable
      · exact ordered.reserved q (.inr (.inr ⟨block, List.mem_cons_of_mem _ inside, holds⟩))
    exact same.notTable.mpr before
  · intro q member
    show ∃ u, UserPage u ∧ Function.update pg.va (pg.base + p) (pageSize * v) (pg.base + q) = _
    by_cases new : q = p
    · rw [new, Function.update_self]
      exact ⟨v, user, rfl⟩
    · rw [Function.update_of_ne (by omega)]
      exact ordered.placed q ((others q member).resolve_right new)

end Ordered

/-- `do_swap` and `swap_in` keep the lists apart. -/
theorem Ordered.discipline :
    Discipline (fun _ pg blocks => ∃ free fifo, pg.Ordered blocks free fifo)
      (fun _ pg blocks p => ∃ free fifo, pg.Ordered ((p, 1) :: blocks) free fifo) where
  fewer inv := inv
  searched mm inv := by
    obtain ⟨free, fifo, ordered⟩ := inv
    exact ⟨free, fifo, ordered.congr ⟨rfl, rfl, rfl, rfl⟩
      (ordered.mapping.of_memory rfl rfl rfl rfl) rfl rfl⟩
  allocated inv done := by
    obtain ⟨free, fifo, ordered⟩ := inv
    obtain ⟨p, free, fifo, rfl, kept, settled⟩ := ordered.allocPage Nat.one_pos Keeper.takes_one done
    obtain ⟨-, notTable, narrow⟩ := kept.handed_out Nat.one_pos
    exact ⟨p, rfl, ⟨free, fifo, kept⟩, settled, notTable, narrow⟩
  newTable inv user missing := by
    obtain ⟨free, fifo, ordered⟩ := inv
    exact ⟨free, fifo, ordered.newTable user missing⟩
  installed inv user has _ _ := by
    obtain ⟨free, fifo, ordered⟩ := inv
    exact ⟨free, _, ordered.installed user has⟩

end Pointers

/-! ## The pages that are given back -/

/-- Page `v` is mapped to page `p` of the pool, and nothing else is. -/
def LastReference (pg : Paging) (v p : Nat) : Prop :=
  Entry.Present (pg.pte v) ∧ Entry.addr (pg.pte v) = pg.base + p ∧ pg.ref (pg.base + p) = 1

/-- What `unmap` makes of the last reference. -/
theorem unmap_last [Aliases] (done : pg.unmap pg.pde la = .ok after) (here : la / 2 ^ 12 = v)
    (last : pg.LastReference v p) : after.ref (pg.base + p) = 0 := by
  obtain ⟨present, address, one⟩ := last
  rcases unmap_ok done here with ⟨absent, -⟩ | ⟨-, dropped, drop, rfl⟩
  · exact absurd present absent
  · rw [address] at drop
    obtain ⟨area, rfl, -⟩ := dropRef_ok drop
    show Function.update pg.ref (pg.base + p) _ (pg.base + p) = 0
    rw [Function.update_self, one]
    rfl

/-- The address that the kernel has for a page of the pool. -/
theorem Mapping.direct_la (mapping : pg.Mapping) (below : q < pg.count) {entry : Nat}
    (address : Entry.addr entry = pg.base + q) :
    Entry.getPgAddrLa entry / 2 ^ 12 = directPage (pg.base + q) ∧
      directPage (pg.base + q) < 2 ^ 20 := by
  have room := mapping.room
  simp only [Entry.getPgAddrLa, address, pageSize, vertualMem, directPage]
  omega

/-- The page is on the list with this head. -/
def OnList (pg : Paging) (start : PageNode) (p : Nat) : Prop :=
  ∃ list : List Nat, pg.area.nodes.IsRing start (list.map .page) ∧ p ∈ list

/-- The page is on neither list and holds no table. -/
def Loose (pg : Paging) (p : Nat) : Prop :=
  ¬ pg.OnList .head p ∧ ¬ pg.OnList .vmFifo p ∧ pg.NotTable (pg.base + p)

theorem remaining_unheld {block : Nat × Nat} (last : pg.ref (pg.base + p) = 1)
    (gone : after.ref (pg.base + p) = 0) (member : block ∈ remaining pg after blocks) :
    ¬ InBlock block p := by
  intro inside
  have all := (List.mem_filter.mp member).2
  have none := List.all_eq_true.mp all p (mem_block.mp inside)
  simp [last, gone] at none

section Pointers

variable [Aliases] [Keeper]

namespace Ordered

theorem loose (ordered : pg.Ordered blocks free fifo) (loose : pg.Loose p) :
    p ∉ free ∧ p ∉ fifo ∧ pg.NotTable (pg.base + p) :=
  ⟨fun member => loose.1 ⟨free, ordered.rings.ring, member⟩,
    fun member => loose.2.1 ⟨fifo, ordered.rings.queue, member⟩, loose.2.2⟩

theorem dropRef (ordered : pg.Ordered blocks free fifo) (below : p < pg.count)
    (loose : pg.ref (pg.base + p) = 1 → pg.Loose p) (fewer : rest.Sublist blocks)
    (unheld : pg.ref (pg.base + p) = 1 → ∀ block ∈ rest, ¬ InBlock block p)
    (done : pg.dropRef (pg.base + p) = .ok after) : ∃ listed, after.Ordered rest listed fifo := by
  have index : pg.base + p - pg.base = p := Nat.add_sub_cancel_left ..
  have kept := ordered.forget fewer
  obtain ⟨area, rfl, given, same⟩ := dropRef_ok done
  by_cases last : pg.ref (pg.base + p) = 1
  · obtain ⟨notFree, notQueued, notTable⟩ := ordered.loose (loose last)
    have held := Keeper.hold kept.queues below notFree notQueued (unheld last)
    obtain ⟨freed, listed, called, queues, members⟩ :=
      @Keeper.giveBack _ _ _ _ ⟨p, false⟩ _ _ _ held List.mem_cons_self
    have result := given last
    rw [index] at result
    have area_eq : freed = area := Option.some.inj (called.symm.trans result)
    subst area_eq
    rw [List.erase_cons_head] at queues
    refine ⟨listed, ordered.mapping.of_memory rfl rfl rfl rfl, queues, ?_, ordered.placed⟩
    intro q member
    rcases member with inList | other
    · cases ((members q).mp inList).2 with
      | inl before => exact kept.reserved q (.inl before)
      | inr inside =>
          simp only [InBlock] at inside
          have equal : q = p := by omega
          exact equal ▸ notTable
    · exact kept.reserved q (.inr other)
  · obtain rfl := same last
    exact ⟨free, kept.congr ⟨rfl, rfl, rfl, rfl⟩
      (ordered.mapping.of_memory rfl rfl rfl rfl) rfl rfl⟩

theorem unmap (ordered : pg.Ordered blocks free fifo) (here : la / 2 ^ 12 = v) (small : v < 2 ^ 20)
    (named : Entry.Present (pg.pte v) → ∃ p < pg.count, Entry.addr (pg.pte v) = pg.base + p)
    (loose : ∀ p, pg.LastReference v p → pg.Loose p) (fewer : rest.Sublist blocks)
    (unheld : ∀ p, pg.LastReference v p → ∀ block ∈ rest, ¬ InBlock block p)
    (done : pg.unmap pg.pde la = .ok after) :
    ∃ listed, after.Ordered rest listed fifo ∧ Settled pg after := by
  obtain ⟨mapping, settled⟩ := ordered.mapping.unmap here small done
  rcases unmap_ok done here with ⟨-, rfl⟩ | ⟨present, dropped, drop, rfl⟩
  · exact ⟨free, ordered.forget fewer, settled⟩
  · obtain ⟨p, below, address⟩ := named present
    rw [address] at drop
    obtain ⟨listed, kept⟩ := ordered.dropRef below (fun last => loose p ⟨present, address, last⟩) fewer
      (fun last => unheld p ⟨present, address, last⟩) drop
    obtain ⟨area, rfl, -⟩ := dropRef_ok drop
    refine ⟨listed, kept.congr ?_ mapping rfl rfl, settled⟩
    exact ⟨settled.pde, settled.base, settled.count, settled.directory⟩

/-- The entry of a user page is written. -/
theorem setUser {w : Nat} (ordered : pg.Ordered blocks free fifo) (user : UserPage v)
    (has : pg.HasTable (v / 2 ^ 10)) (small : w < 2 ^ 32)
    (named : ∃ p < pg.count, Entry.addr w = pg.base + p) :
    ((pg.setEntry (pg.table (v / 2 ^ 10)) (v % 2 ^ 10) w).invlpg la).Ordered blocks free fifo := by
  obtain ⟨mapping, same⟩ := ordered.mapping.setUser user has small named
  exact ordered.congr ⟨same.pde, same.base, same.count, same.directory⟩
    (mapping.of_memory rfl rfl rfl rfl) rfl rfl

/-- The last page that the kernel's address of `q` refers to is `q`, to which `v` is mapped. -/
theorem last_direct {q r : Nat} (ordered : pg.Ordered blocks free fifo) (below : q < pg.count)
    (present : Entry.Present (pg.pte v)) (address : Entry.addr (pg.pte v) = pg.base + q)
    (other : q ≠ p)
    (last : ({ pg with
      ref := Function.update pg.ref (pg.base + p) (pg.ref (pg.base + p) + 1) }).LastReference
        (directPage (pg.base + q)) r) :
    r = q ∧ pg.LastReference v q ∧ Entry.Present (pg.pte (directPage (pg.base + q))) := by
  obtain ⟨presentDirect, addressDirect, one⟩ := last
  have mapped := ordered.mapping.direct q below presentDirect
  have both : pg.base + q = pg.base + r := mapped.symm.trans addressDirect
  obtain rfl : r = q := by omega
  have sameRef : Function.update pg.ref (pg.base + p) (pg.ref (pg.base + p) + 1) (pg.base + r) =
      pg.ref (pg.base + r) :=
    Function.update_of_ne (by omega) _ _
  exact ⟨rfl, ⟨present, address, sameRef ▸ one⟩, presentDirect⟩

/-- `map` of a page of the pool, once there is a table. -/
theorem map {alloc : Paging → Except Halt (Option Nat × Paging)}
    (ordered : pg.Ordered blocks free fifo) (user : UserPage v) (here : la / 2 ^ 12 = v)
    (has : pg.HasTable (v / 2 ^ 10)) (below : p < pg.count)
    (loose : ∀ q, q ≠ p → pg.LastReference v q →
      Entry.Present (pg.pte (directPage (pg.base + q))) → pg.Loose q)
    (fewer : rest.Sublist blocks)
    (unheld : ∀ q, pg.LastReference v q → after.ref (pg.base + q) = 0 →
      ∀ block ∈ rest, ¬ InBlock block q)
    (done : pg.map alloc pg.pde la (pg.base + p) sign = .ok after) :
    ∃ listed, after.Ordered rest listed fifo := by
  have room := ordered.mapping.room
  have narrow : pg.base + p < 2 ^ 20 := by omega
  let counted := { pg with ref := Function.update pg.ref (pg.base + p) (pg.ref (pg.base + p) + 1) }
  have orderedCounted : counted.Ordered blocks free fifo :=
    ordered.congr ⟨rfl, rfl, rfl, rfl⟩ (ordered.mapping.of_memory rfl rfl rfl rfl) rfl rfl
  have named : ∀ e, ∃ q < pg.count, Entry.addr (Entry.mapped e (pg.base + p) sign) = pg.base + q :=
    fun e => ⟨p, below, Entry.addr_set narrow⟩
  rcases map_ok done has here with ⟨-, result⟩ | ⟨-, -, result⟩ |
      ⟨present, different, unmapped, unmap, result⟩
  · have written : ((counted.setEntry (pg.table (v / 2 ^ 10)) (v % 2 ^ 10)
        (Entry.mapped (pg.pte v) (pg.base + p) sign)).invlpg la).Ordered rest free fifo :=
      (orderedCounted.forget fewer).setUser user has Entry.set_lt (named _)
    rw [← result] at written
    exact ⟨free, written⟩
  · have written : ((pg.setEntry (pg.table (v / 2 ^ 10)) (v % 2 ^ 10)
        (Entry.mapped (pg.pte v) (pg.base + p) sign)).invlpg la).Ordered rest free fifo :=
      (ordered.forget fewer).setUser user has Entry.set_lt (named _)
    rw [← result] at written
    exact ⟨free, written⟩
  · obtain ⟨q, belowQ, address⟩ := ordered.mapping.pool v user present
    obtain ⟨direct, inside⟩ := ordered.mapping.direct_la belowQ address
    have other : q ≠ p := fun same => different (same ▸ address)
    have only : ∀ r, counted.LastReference (directPage (pg.base + q)) r →
        r = q ∧ pg.LastReference v q ∧ Entry.Present (pg.pte (directPage (pg.base + q))) :=
      fun r last => ordered.last_direct belowQ present address other last
    obtain ⟨listed, orderedUnmapped, settled⟩ := orderedCounted.unmap direct inside
      (fun presentDirect => ⟨q, belowQ, ordered.mapping.direct q belowQ presentDirect⟩)
      (fun r last => by
        obtain ⟨rfl, lastV, presentDirect⟩ := only r last
        exact loose r other lastV presentDirect)
      fewer
      (fun r last => by
        obtain ⟨rfl, lastV, presentDirect⟩ := only r last
        apply unheld r lastV
        rw [result]
        show unmapped.ref (pg.base + r) = 0
        exact @unmap_last counted _ _ _ _ _ unmap direct last)
      unmap
    have hasAfter := settled.tables.1.mpr has
    have table : unmapped.table (v / 2 ^ 10) = pg.table (v / 2 ^ 10) := settled.tables.2
    have base : unmapped.base = pg.base := settled.base
    have count : unmapped.count = pg.count := settled.count
    have written := @setUser _ _ _ _ v la _ _
      (Entry.mapped (unmapped.entry (pg.table (v / 2 ^ 10)) (v % 2 ^ 10)) (pg.base + p) sign)
      orderedUnmapped user hasAfter Entry.set_lt (by rw [base, count]; exact named _)
    rw [table, ← result] at written
    exact ⟨listed, written⟩

end Ordered

end Pointers

end Paging

namespace VmState

open Paging PageState

variable {state next : VmState} {op : VmOp}

section Pointers

variable [Aliases] [Keeper]

/-- A page that `unmap`, or `map` in place of another page, gives back is loose, and `alloc_page`
unlinks what it hands out. -/
def KeepsApart (state : VmState) : VmOp → Prop
  | .map la page _ => ∀ p, p ≠ page → state.pg.LastReference (la / pageSize) p →
      Entry.Present (state.pg.pte (directPage (state.pg.base + p))) → state.pg.Loose p
  | .unmap la => ∀ p, state.pg.LastReference (la / pageSize) p → state.pg.Loose p
  | .alloc n => Keeper.Takes state.pg.area n
  | _ => True

/-- The lists are apart. -/
def InOrder (state : VmState) : Prop :=
  ∃ free fifo, state.pg.Ordered state.blocks free fifo

theorem Start.inOrder (start : Start state) : InOrder state := by
  obtain ⟨free, queues, reserved⟩ := start.queues
  refine ⟨free, [], start.mapping, Keeper.of_queues queues, ?_, by simp⟩
  intro p member
  apply reserved
  simpa using member

theorem InOrder.alloc {n : Nat} (inOrder : InOrder state) (allowed : KeepsApart state (.alloc n))
    (moved : state.step (.alloc n) = some next) : InOrder next := by
  obtain ⟨free, fifo, ordered⟩ := inOrder
  simp only [step] at moved
  split at moved
  · rename_i positive
    obtain ⟨⟨found, pg⟩, allocated, rfl⟩ := Option.map_eq_some_iff.mp moved
    have done := ok_of_toOption allocated
    cases found with
    | none =>
        rw [allocPage_none done]
        exact ⟨free, fifo, ordered⟩
    | some frame =>
        obtain ⟨p, listed, queued, rfl, kept, settled⟩ := ordered.allocPage positive allowed done
        have index : pg.base + p - state.pg.base = p := by
          rw [settled.base]
          omega
        refine ⟨listed, queued, ?_⟩
        simp only [index]
        split
        · exact kept.forget (List.sublist_cons_self _ _)
        · exact kept
  · cases moved

theorem InOrder.free {page : PagePtr} {n : Nat} (inOrder : InOrder state)
    (moved : state.step (.free page n) = some next) : InOrder next := by
  obtain ⟨free, fifo, ordered⟩ := inOrder
  simp only [step] at moved
  split at moved
  · rename_i held
    have member := List.contains_iff_mem.mp held
    obtain ⟨pg, freed, rfl⟩ := Option.map_eq_some_iff.mp moved
    have done := ok_of_toOption freed
    have index : state.pg.base + page.page - state.pg.base = page.page := Nat.add_sub_cancel_left ..
    obtain ⟨area, listed, given, queues, members⟩ := Keeper.giveBack ordered.queues member
    rw [freePage_ok (by rw [index]; exact given)] at done
    cases done
    refine ⟨listed, fifo, ordered.mapping.of_memory rfl rfl rfl rfl, queues, ?_, ordered.placed⟩
    intro q inside
    apply ordered.reserved
    rcases inside with inList | inFifo | ⟨block, held, holds⟩
    · cases ((members q).mp inList).2 with
      | inl before => exact .inl before
      | inr inBlock => exact .inr (.inr ⟨_, member, inBlock⟩)
    · exact .inr (.inl inFifo)
    · exact .inr (.inr ⟨block, List.mem_of_mem_erase held, holds⟩)
  · cases moved

theorem InOrder.map {la page bitsign : Nat} (inOrder : InOrder state)
    (allowed : KeepsApart state (.map la page bitsign))
    (moved : state.step (.map la page bitsign) = some next) : InOrder next := by
  simp only [step] at moved
  split at moved
  · rename_i guard
    obtain ⟨user, block, held, inBlock⟩ := guard
    obtain ⟨pg, mapped, rfl⟩ := Option.map_eq_some_iff.mp moved
    have done := ok_of_toOption mapped
    have here : la / 2 ^ 12 = la / pageSize := rfl
    have called := done
    unfold Paging.map at called
    obtain ⟨⟨pte, middle⟩, got, ended⟩ := ok_of_bind called
    rcases @Discipline.getPte _ _ _ 0 _ _ _ _ _ _ Ordered.discipline inOrder user here got with
      ⟨rfl, -⟩ | ⟨⟨free, fifo, ordered⟩, has, rfl, ⟨pde, base, count⟩, untouched⟩
    · cases ended
    · rw [map_of_getPte got has here pde, ← base] at done
      obtain ⟨_, _, before⟩ := inOrder
      have below : page < middle.count := by
        rw [count]
        exact (before.rings.outside block held page inBlock).2
      -- A page is replaced only where there was a table before.
      have same : ∀ q, middle.LastReference (la / pageSize) q → middle = state.pg := by
        intro q last
        rcases untouched with same | ⟨-, absent⟩
        · exact same
        · exact absurd last.1 absent
      obtain ⟨listed, kept⟩ := ordered.map user here has below
        (fun q other last presentDirect => by
          obtain rfl := same q last
          exact allowed q other last presentDirect)
        (show (remaining state.pg pg state.blocks).Sublist state.blocks from List.filter_sublist)
        (fun q last gone block member => by
          obtain rfl := same q last
          exact remaining_unheld last.2.2 gone member)
        done
      exact ⟨listed, fifo, kept⟩
  · cases moved

theorem InOrder.unmap {la : Nat} (inOrder : InOrder state) (allowed : KeepsApart state (.unmap la))
    (moved : state.step (.unmap la) = some next) : InOrder next := by
  obtain ⟨free, fifo, ordered⟩ := inOrder
  simp only [step] at moved
  split at moved
  · rename_i user
    obtain ⟨pg, unmapped, rfl⟩ := Option.map_eq_some_iff.mp moved
    have done := ok_of_toOption unmapped
    have here : la / 2 ^ 12 = la / pageSize := rfl
    obtain ⟨listed, kept, -⟩ := ordered.unmap here (user_small user) (ordered.mapping.pool _ user)
      allowed (show (remaining state.pg pg state.blocks).Sublist state.blocks from List.filter_sublist)
      (fun p last block member => remaining_unheld last.2.2 (unmap_last done here last) member)
      done
    exact ⟨listed, fifo, kept⟩
  · cases moved

theorem InOrder.step (inOrder : InOrder state) (allowed : KeepsApart state op)
    (moved : state.step op = some next) : InOrder next := by
  cases op with
  | alloc n => exact inOrder.alloc allowed moved
  | free page n => exact inOrder.free moved
  | fault cr2 isWrite =>
      simp only [VmState.step] at moved
      split at moved
      · rename_i guard
        obtain ⟨pg, faulted, rfl⟩ := Option.map_eq_some_iff.mp moved
        exact Ordered.discipline.doSwap inOrder guard.1 guard.2 (ok_of_toOption faulted)
      · cases moved
  | swapIn v =>
      simp only [VmState.step] at moved
      split at moved
      · rename_i guard
        obtain ⟨pg, swapped, rfl⟩ := Option.map_eq_some_iff.mp moved
        exact Ordered.discipline.swapIn inOrder guard.1 guard.2 (ok_of_toOption swapped)
      · cases moved
  | swapOut n =>
      obtain ⟨free, fifo, ordered⟩ := inOrder
      obtain ⟨pg, swapped, rfl⟩ := Option.map_eq_some_iff.mp moved
      obtain ⟨free, fifo, kept, -⟩ := ordered.swapOut (ok_of_toOption swapped)
      exact ⟨free, fifo, kept⟩
  | map la page bitsign => exact inOrder.map allowed moved
  | unmap la => exact inOrder.unmap allowed moved
  | access la =>
      obtain ⟨free, fifo, ordered⟩ := inOrder
      simp only [VmState.step] at moved
      split at moved
      · cases moved
        exact ⟨free, fifo, ordered.congr ⟨rfl, rfl, rfl, rfl⟩
          (ordered.mapping.of_memory rfl rfl rfl rfl) rfl rfl⟩
      · cases moved
  | loadCr3 =>
      obtain ⟨free, fifo, ordered⟩ := inOrder
      cases moved
      exact ⟨free, fifo, ordered.congr ⟨rfl, rfl, rfl, rfl⟩
        (ordered.mapping.of_memory rfl rfl rfl rfl) rfl rfl⟩

theorem inOrder_of_reachable (reached : machine.ReachableWithin KeepsApart state) : InOrder state := by
  refine reached.invariant ?_ ?_
  · intro state start
    exact Start.inOrder start
  · intro before op after inOrder allowed moved
    exact inOrder.step allowed moved

end Pointers

end VmState

end WindOs.Mm
