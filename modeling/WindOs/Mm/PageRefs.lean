import WindOs.Mm.PageLists

namespace WindOs.Mm

open Data

/-! # The reference counts

`map` counts a page up and `unmap` counts it down.  `swap_out` takes the entry of a page
away and frees the page, and leaves its count as it is.
-/

namespace Entry

/-- 1 if the entry maps the frame. -/
def points (entry frame : Nat) : Int := if Present entry ∧ addr entry = frame then 1 else 0

theorem points_absent {entry frame : Nat} (absent : ¬ Present entry) : points entry frame = 0 :=
  if_neg fun both => absent both.1

theorem points_self {entry frame : Nat} (present : Present entry) (address : addr entry = frame) :
    points entry frame = 1 :=
  if_pos ⟨present, address⟩

theorem points_other {entry frame : Nat} (different : addr entry ≠ frame) : points entry frame = 0 :=
  if_neg fun both => different both.2

theorem points_mapped {entry base p q sign : Nat} (narrow : base + p < 2 ^ 20)
    (odd : sign % 2 = 1) :
    points (mapped entry (base + p) sign) (base + q) = if q = p then 1 else 0 := by
  have address : addr (mapped entry (base + p) sign) = base + p := addr_set narrow
  split
  · rename_i equal
    rw [equal]
    exact points_self (present_set odd) address
  · refine points_other ?_
    rw [address]
    omega

end Entry

namespace Paging

open VmState PageState

variable {pg after : Paging} {blocks rest : List (Nat × Nat)} {free : List Nat}
  {frame k i n p q u v w la page sign : Nat}

/-- How many user pages are mapped to a frame. -/
def mappings (pg : Paging) (frame : Nat) : Nat :=
  tally (fun v : Fin (0xC0000 - 0x400) => pg.pte (0x400 + v)) fun entry =>
    Entry.Present entry ∧ Entry.addr entry = frame

theorem mappings_congr (entries : ∀ u, UserPage u → after.pte u = pg.pte u) :
    after.mappings frame = pg.mappings frame := by
  have same : (fun v : Fin (0xC0000 - 0x400) => after.pte (0x400 + v)) =
      fun v : Fin (0xC0000 - 0x400) => pg.pte (0x400 + v) := by
    funext v
    have small := v.isLt
    exact entries _ (by simp only [UserPage]; omega)
  rw [mappings, same, mappings]

/-- One entry is rewritten. -/
theorem mappings_rewritten (user : UserPage v)
    (others : ∀ u, UserPage u → u ≠ v → after.pte u = pg.pte u) :
    (after.mappings frame : Int) + Entry.points (pg.pte v) frame =
      pg.mappings frame + Entry.points (after.pte v) frame := by
  have bounds := user
  simp only [UserPage] at bounds
  let index : Fin (0xC0000 - 0x400) := ⟨v - 0x400, by omega⟩
  have place : 0x400 + (index : Nat) = v := by
    show 0x400 + (v - 0x400) = v
    omega
  have moved : (fun u : Fin (0xC0000 - 0x400) => after.pte (0x400 + u)) =
      Function.update (fun u : Fin (0xC0000 - 0x400) => pg.pte (0x400 + u)) index (after.pte v) := by
    funext u
    by_cases same : u = index
    · rw [same, Function.update_self, place]
    · have small := u.isLt
      rw [Function.update_of_ne same]
      refine others _ (by simp only [UserPage]; omega) fun equal => same ?_
      ext
      omega
  have counted := tally_update (fun u : Fin (0xC0000 - 0x400) => pg.pte (0x400 + u))
    (fun entry => Entry.Present entry ∧ Entry.addr entry = frame) index (after.pte v)
  rw [← moved, place] at counted
  simp only [mappings, Entry.points]
  simp only [decide_eq_true_eq] at counted
  split_ifs at counted ⊢ <;> omega

theorem mappings_pos (user : UserPage v) (present : Entry.Present (pg.pte v))
    (address : Entry.addr (pg.pte v) = frame) : 0 < pg.mappings frame := by
  simp only [UserPage] at user
  refine tally_pos_iff.mpr ⟨⟨v - 0x400, by omega⟩, ?_⟩
  have place : 0x400 + (v - 0x400) = v := by omega
  simp only [place, decide_eq_true_eq]
  exact ⟨present, address⟩

theorem mappings_eq_zero (unmapped : ∀ u, UserPage u → Entry.Present (pg.pte u) →
    Entry.addr (pg.pte u) ≠ frame) : pg.mappings frame = 0 := by
  refine tally_eq_zero_iff.mpr ?_
  intro u
  have small := u.isLt
  simp only [decide_eq_false_iff_not]
  rintro ⟨present, address⟩
  exact unmapped _ (by simp only [UserPage]; omega) present address

/-- The counts are exact, and what is mapped is neither free nor a table. -/
structure Counted (pg : Paging) (blocks : List (Nat × Nat)) (free : List Nat) : Prop where
  mapping : pg.Mapping
  sound : PageState.Sound pg.count { area := pg.area, blocks } free
  queue : pg.area.nodes.IsRing .vmFifo [] ∨ pg.area.nodes.next .vmFifo ≠ .vmFifo
  reserved : ∀ p, p ∈ free ∨ Covered InBlock blocks p → pg.NotTable (pg.base + p)
  mapped : ∀ v p, UserPage v → Entry.Present (pg.pte v) → Entry.addr (pg.pte v) = pg.base + p →
    p ∉ free ∧ pg.NotTable (pg.base + p)
  exact : ∀ p < pg.count, pg.NotTable (pg.base + p) →
    pg.ref (pg.base + p) = pg.mappings (pg.base + p)

namespace Counted

/-- A page that is not mapped has no references. -/
theorem ref_zero (counted : pg.Counted blocks free) (below : p < pg.count)
    (notTable : pg.NotTable (pg.base + p)) (unmapped : ∀ u, UserPage u → Entry.Present (pg.pte u) →
      Entry.addr (pg.pte u) ≠ pg.base + p) : pg.ref (pg.base + p) = 0 := by
  rw [counted.exact p below notTable, mappings_eq_zero unmapped]
  rfl

theorem ref_free (counted : pg.Counted blocks free) (member : p ∈ free) :
    pg.ref (pg.base + p) = 0 :=
  counted.ref_zero (counted.sound.bounded p member) (counted.reserved p (.inl member))
    fun u user present address => (counted.mapped u p user present address).1 member

/-- A page without references is not mapped. -/
theorem unmapped (counted : pg.Counted blocks free) (zero : pg.ref (pg.base + p) = 0)
    (below : p < pg.count) (user : UserPage v) (present : Entry.Present (pg.pte v)) :
    Entry.addr (pg.pte v) ≠ pg.base + p := by
  intro address
  have positive := mappings_pos user present address
  have exact := counted.exact p below (counted.mapped v p user present address).2
  omega

theorem forget (counted : pg.Counted blocks free) (fewer : rest.Sublist blocks) :
    pg.Counted rest free where
  mapping := counted.mapping
  sound := counted.sound.forget fewer
  queue := counted.queue
  reserved p member := by
    apply counted.reserved
    rcases member with inFree | ⟨block, inside, holds⟩
    · exact .inl inFree
    · exact .inr ⟨block, fewer.subset inside, holds⟩
  mapped := counted.mapped
  exact := counted.exact

/-- Whatever is not in the lists, the tables or the counts may change. -/
theorem of_memory (counted : pg.Counted blocks free) (pde : after.pde = pg.pde)
    (base : after.base = pg.base) (count : after.count = pg.count)
    (memory : after.memory = pg.memory) (area : after.area = pg.area) (ref : after.ref = pg.ref) :
    after.Counted blocks free := by
  have same : SameTables pg after := ⟨pde, base, count, by rw [memory]⟩
  have words : ∀ u, after.pte u = pg.pte u := fun u => pte_of_memory pde memory
  refine ⟨counted.mapping.of_memory pde base count memory, ?_, ?_, ?_, ?_, ?_⟩
  · rw [count, area]
    exact counted.sound
  · rw [area]
    exact counted.queue
  · intro p member
    rw [same.notTable, base]
    exact counted.reserved p member
  · intro v p user present address
    rw [words] at present address
    rw [base] at address
    rw [same.notTable, base]
    exact counted.mapped v p user present address
  · intro p below notTable
    rw [same.notTable, base] at notTable
    rw [count] at below
    rw [base, ref, mappings_congr fun u _ => words u]
    exact counted.exact p below notTable

/-- The entry of one page is rewritten, and the counts with it. -/
theorem rewritten (counted : pg.Counted blocks free) (same : SameTables pg after)
    (mapping : after.Mapping) (area : after.area = pg.area) (user : UserPage v)
    (others : ∀ u, UserPage u → u ≠ v → after.pte u = pg.pte u)
    (new : ∀ p, Entry.Present (after.pte v) → Entry.addr (after.pte v) = pg.base + p →
      p ∉ free ∧ pg.NotTable (pg.base + p))
    (refs : ∀ p < pg.count, after.ref (pg.base + p) + Entry.points (pg.pte v) (pg.base + p) =
      pg.ref (pg.base + p) + Entry.points (after.pte v) (pg.base + p)) :
    after.Counted blocks free := by
  refine ⟨mapping, ?_, ?_, ?_, ?_, ?_⟩
  · rw [same.count, area]
    exact counted.sound
  · rw [area]
    exact counted.queue
  · intro p member
    rw [same.notTable, same.base]
    exact counted.reserved p member
  · intro u p userU present address
    rw [same.base] at address
    rw [same.notTable, same.base]
    by_cases here : u = v
    · rw [here] at present address
      exact new p present address
    · rw [others u userU here] at present address
      exact counted.mapped u p userU present address
  · intro p below notTable
    rw [same.notTable, same.base] at notTable
    rw [same.count] at below
    rw [same.base]
    have before := counted.exact p below notTable
    have change := refs p below
    have entries := @mappings_rewritten pg after (pg.base + p) v user others
    omega

/-- The queue is empty as long as nothing but the free list is edited. -/
theorem queue_agreeOff {area : FreeArea} {list : List Nat}
    (agree : pg.area.nodes.AgreeOff area.nodes (.head :: list.map .page)) :
    (pg.area.nodes.IsRing .vmFifo [] → area.nodes.IsRing .vmFifo []) ∧
      area.nodes.next .vmFifo = pg.area.nodes.next .vmFifo := by
  have outside : PageNode.vmFifo ∉ .head :: list.map .page := by simp
  refine ⟨fun ring => ring.agreeOff agree ?_, (agree _ outside).1⟩
  intro node member
  rw [List.mem_singleton.mp member]
  exact outside

theorem queue_kept {area : FreeArea} {list : List Nat} (counted : pg.Counted blocks free)
    (agree : pg.area.nodes.AgreeOff area.nodes (.head :: list.map .page)) :
    area.nodes.IsRing .vmFifo [] ∨ area.nodes.next .vmFifo ≠ .vmFifo := by
  obtain ⟨ring, next⟩ := queue_agreeOff agree
  rw [next]
  exact counted.queue.imp_left ring

/-- A block without references is given back. -/
theorem giveBack (counted : pg.Counted blocks free) (member : (page, n) ∈ blocks)
    (zero : ∀ q, InBlock (page, n) q → pg.ref (pg.base + q) = 0) :
    ∃ area listed, pg.area.freePage (pg.count + 1) page n = some area ∧
      { pg with area }.Counted (blocks.erase (page, n)) listed := by
  obtain ⟨area, listed, done, sound, change, agree⟩ := counted.sound.free member false
  refine ⟨area, listed, done, counted.mapping.of_memory rfl rfl rfl rfl, sound,
    counted.queue_kept agree, ?_, ?_, counted.exact⟩
  · intro q inside
    apply counted.reserved
    rcases inside with inList | ⟨block, held, holds⟩
    · cases ((change.members q).mp inList).2 with
      | inl before => exact .inl before
      | inr inBlock => exact .inr ⟨_, member, inBlock⟩
    · exact .inr ⟨block, List.mem_of_mem_erase held, holds⟩
  · intro v q user present address
    obtain ⟨notFree, notTable⟩ := counted.mapped v q user present address
    refine ⟨?_, notTable⟩
    intro inList
    cases ((change.members q).mp inList).2 with
    | inl before => exact notFree before
    | inr inBlock =>
        have below := (counted.sound.outside _ member q inBlock).2
        exact counted.unmapped (zero q inBlock) below user present address

/-- A page in nobody's hands is given back when it has no references. -/
theorem giveBack_loose {area : FreeArea} (counted : pg.Counted blocks free) (below : p < pg.count)
    (notFree : p ∉ free) (notTable : pg.NotTable (pg.base + p))
    (unheld : ∀ block ∈ blocks, ¬ InBlock block p) (zero : pg.ref (pg.base + p) = 0)
    (done : pg.area.freePage (pg.count + 1) p 1 = some area) :
    ∃ listed, { pg with area }.Counted blocks listed := by
  have single : ∀ q, InBlock (p, 1) q → q = p := by
    intro q inside
    simp only [InBlock] at inside
    omega
  have held : pg.Counted ((p, 1) :: blocks) free := by
    refine ⟨counted.mapping, counted.sound.hold below notFree unheld, counted.queue, ?_,
      counted.mapped, counted.exact⟩
    intro q member
    rcases member with inFree | ⟨block, inside, holds⟩
    · exact counted.reserved q (.inl inFree)
    · cases List.mem_cons.mp inside with
      | inl new =>
          rw [new] at holds
          rw [single q holds]
          exact notTable
      | inr old => exact counted.reserved q (.inr ⟨block, old, holds⟩)
  obtain ⟨freed, listed, called, kept⟩ := held.giveBack List.mem_cons_self
    (fun q inside => by rw [single q inside]; exact zero)
  obtain rfl := Option.some.inj (called.symm.trans done)
  rw [List.erase_cons_head] at kept
  exact ⟨listed, kept⟩

end Counted

/-- The next `alloc_page(1)` evicts no page, for want of a page to evict or of a free one. -/
def Quiet (pg : Paging) : Prop :=
  pg.area.nodes.next .vmFifo = .vmFifo ∨ pg.area.nodes.next .head = .head

theorem swapOut_zero : pg.swapOut 0 = .ok pg := by
  have ended : swapOutRound (.vmFifo, 0, pg) = .inr (.ok pg) := by
    cases node : pg.area.nodes.next .vmFifo <;> simp only [swapOutRound, node]
  rw [swapOut, loop_exit ended]
  rfl

theorem swapOut_empty [Aliases] (empty : pg.area.nodes.next .vmFifo = .vmFifo) : pg.swapOut n = .ok pg := by
  have ended : swapOutRound (.vmFifo, n, pg) = .inr (.ok pg) := by
    simp only [swapOutRound, empty]
  rw [swapOut, loop_exit ended]
  rfl

namespace Counted

theorem alloc (counted : pg.Counted blocks free) (positive : 0 < n) (quiet : n = 1 → pg.Quiet)
    (done : pg.allocPage n = .ok (some frame, after)) :
    ∃ p area left, frame = pg.base + p ∧ after = { pg with area } ∧
      after.Counted ((p, n) :: blocks) left ∧ after.ref (after.base + p) = 0 ∧
      (n = 1 → area.nodes.IsRing .vmFifo []) := by
  rcases counted.sound.alloc positive with refused | ⟨p, left, area, whole, served, sound, -, -, agree⟩
  · rw [allocPage_refused refused] at done
    cases done
  · have listed : ∀ q, InBlock (p, n) q → q ∈ free := by
      intro q inside
      rw [whole]
      exact List.mem_append_left _ (mem_block.mp inside)
    have first : InBlock (p, n) p := ⟨Nat.le_refl _, Nat.lt_add_of_pos_right positive⟩
    have taken : { pg with area }.Counted ((p, n) :: blocks) left := by
      refine ⟨counted.mapping.of_memory rfl rfl rfl rfl, sound, counted.queue_kept agree, ?_, ?_,
        counted.exact⟩
      · intro q member
        apply counted.reserved
        rcases member with inLeft | ⟨block, inside, holds⟩
        · exact .inl (by rw [whole]; exact List.mem_append_right _ inLeft)
        · cases List.mem_cons.mp inside with
          | inl new => exact .inl (listed q (new ▸ holds))
          | inr old => exact .inr ⟨block, old, holds⟩
      · intro v q user present address
        obtain ⟨notFree, notTable⟩ := counted.mapped v q user present address
        refine ⟨?_, notTable⟩
        intro inLeft
        exact notFree (by rw [whole]; exact List.mem_append_right _ inLeft)
    have empty : n = 1 → pg.area.nodes.next .vmFifo = .vmFifo := by
      intro single
      refine (quiet single).resolve_right ?_
      intro none
      have closed := counted.sound.ring.next_head
      rw [none, whole, single] at closed
      simp [List.range'] at closed
    obtain ⟨ring, next⟩ := Counted.queue_agreeOff agree
    have same : after = { pg with area } ∧ frame = pg.base + p := by
      rw [allocPage_served served] at done
      obtain ⟨swapped, swap, ended⟩ := ok_of_bind done
      split at swap
      · rename_i evicts
        rw [swapOut_empty (next.trans (empty evicts.2))] at swap
        cases swap
        cases ended
        exact ⟨rfl, rfl⟩
      · cases swap
        cases ended
        exact ⟨rfl, rfl⟩
    obtain ⟨rfl, rfl⟩ := same
    refine ⟨p, area, left, rfl, rfl, taken, counted.ref_free (listed p first), ?_⟩
    intro single
    refine ring (counted.queue.resolve_right ?_)
    intro nonempty
    exact nonempty (empty single)

/-- A new page that is not mapped is a frame and no table. -/
theorem handed_out (counted : pg.Counted ((p, 1) :: blocks) free) :
    p < pg.count ∧ p ∉ free ∧ pg.NotTable (pg.base + p) ∧ pg.base + p < 2 ^ 20 := by
  have self : InBlock (p, 1) p := ⟨Nat.le_refl _, Nat.lt_succ_self _⟩
  obtain ⟨notFree, below⟩ := counted.sound.outside (p, 1) (by simp) p self
  have room := counted.mapping.room
  exact ⟨below, notFree, counted.reserved p (.inr ⟨(p, 1), by simp, self⟩), by omega⟩

theorem newTable (counted : pg.Counted ((p, 1) :: blocks) free) (zero : pg.ref (pg.base + p) = 0)
    (user : UserTable i) (missing : ¬ pg.HasTable i) :
    (pg.newTable pg.pde i (pg.base + p)).Counted blocks free := by
  obtain ⟨below, notFree, notTable, narrow⟩ := counted.handed_out
  have index : i < 1024 := by
    simp only [UserTable] at user
    omega
  have tables := fun g => @Mapping.newTable_notTable pg (pg.base + p) i g notTable narrow missing index
  have words : ∀ u, UserPage u → (pg.newTable pg.pde i (pg.base + p)).pte u = pg.pte u :=
    fun u userU => counted.mapping.newTable_pte notTable narrow missing (user_small userU)
  have fewer := counted.forget (List.sublist_cons_self (p, 1) blocks)
  refine ⟨counted.mapping.newTable notTable narrow missing, fewer.sound, counted.queue, ?_, ?_, ?_⟩
  · intro q member
    refine (tables _).mpr ⟨?_, fewer.reserved q member⟩
    show pg.base + q ≠ pg.base + p
    have different : q ≠ p := by
      rintro rfl
      rcases member with inFree | ⟨block, inside, holds⟩
      · exact notFree inFree
      · exact (List.pairwise_cons.mp counted.sound.disjoint).1 block inside q
          ⟨Nat.le_refl _, Nat.lt_succ_self _⟩ holds
    omega
  · intro v q userV present address
    rw [words v userV] at present address
    obtain ⟨unlisted, plain⟩ := counted.mapped v q userV present address
    refine ⟨unlisted, (tables _).mpr ⟨?_, plain⟩⟩
    intro same
    exact counted.unmapped zero below userV present (address.trans same)
  · intro q belowQ plain
    obtain ⟨different, before⟩ := (tables _).mp plain
    rw [mappings_congr words]
    have ref : (pg.newTable pg.pde i (pg.base + p)).ref (pg.base + q) = pg.ref (pg.base + q) :=
      Function.update_of_ne different _ _
    exact ref.trans (counted.exact q belowQ before)

/-- A page that was handed out joins the empty queue. -/
theorem enqueue (counted : pg.Counted ((p, 1) :: blocks) free)
    (empty : pg.area.nodes.IsRing .vmFifo []) :
    { pg with area := { pg.area with
      nodes := listInsertBefore pg.area.nodes .vmFifo (.page p) } }.Counted blocks free := by
  have queues : Queues pg.count { area := pg.area, blocks := (p, 1) :: blocks } free [] :=
    ⟨counted.sound, empty, by simp, by simp, by simp⟩
  have queued := queues.enqueue
  have fewer := counted.forget (List.sublist_cons_self (p, 1) blocks)
  refine ⟨counted.mapping.of_memory rfl rfl rfl rfl, queued.sound, .inr ?_, fewer.reserved,
    counted.mapped, counted.exact⟩
  rw [queued.ring.next_head]
  simp

/-- A new page is filled and mapped where there was none. -/
theorem installed {bytes : Bytes} (counted : pg.Counted ((p, 1) :: blocks) free)
    (empty : pg.area.nodes.IsRing .vmFifo []) (user : UserPage v) (has : pg.HasTable (v / 2 ^ 10))
    (absent : ¬ Entry.Present (pg.pte v)) (odd : sign % 2 = 1) :
    (pg.installed v (pg.base + p) sign bytes
      (Function.update pg.ref (pg.base + p) (pg.ref (pg.base + p) + 1))).Counted blocks free := by
  obtain ⟨below, notFree, notTable, narrow⟩ := counted.handed_out
  let ref := Function.update pg.ref (pg.base + p) (pg.ref (pg.base + p) + 1)
  let filled := { pg.installed v (pg.base + p) sign bytes ref with area := pg.area }
  obtain ⟨mapping, same, words⟩ := @Mapping.installed pg p v bytes ref sign counted.mapping notTable
    below user has
  have word : filled.pte v = Entry.setAddr (Entry.setSign (pg.pte v) sign) (pg.base + p) := by
    refine (pte_of_memory rfl rfl).trans ((words v (user_small user)).trans (if_pos rfl))
  have address : Entry.addr (filled.pte v) = pg.base + p := by
    rw [word, Entry.addr_set narrow]
  have present : Entry.Present (filled.pte v) := by
    rw [word]
    exact Entry.present_set odd
  have kept : filled.Counted ((p, 1) :: blocks) free := by
    refine counted.rewritten ⟨rfl, rfl, rfl, same.directory⟩ (mapping.of_memory rfl rfl rfl rfl) rfl
      user ?_ ?_ ?_
    · intro u userU different
      exact (pte_of_memory rfl rfl).trans ((words u (user_small userU)).trans (if_neg different))
    · intro q _ addressQ
      have equal : q = p := by omega
      rw [equal]
      exact ⟨notFree, notTable⟩
    · intro q _
      rw [Entry.points_absent absent]
      show Function.update pg.ref (pg.base + p) _ (pg.base + q) + 0 = _
      by_cases equal : q = p
      · rw [equal, Function.update_self, Entry.points_self present address]
        omega
      · rw [Function.update_of_ne (by omega), Entry.points_other (by rw [address]; omega)]
  have queued := kept.enqueue empty
  have index : pg.base + p - pg.base = p := Nat.add_sub_cancel_left ..
  refine queued.of_memory rfl rfl rfl rfl ?_ rfl
  simp only [Paging.installed, index, filled]

/-- The counts stay exact in `do_swap` and `swap_in` while they evict nothing. -/
theorem discipline : Discipline
    (fun k pg blocks => (∃ free, pg.Counted blocks free) ∧ (k = 0 ∨ pg.Quiet))
    (fun _ pg blocks p => ∃ free, pg.Counted ((p, 1) :: blocks) free ∧
      pg.ref (pg.base + p) = 0 ∧ pg.area.nodes.IsRing .vmFifo []) where
  fewer inv := ⟨inv.1, .inr (inv.2.resolve_left (Nat.succ_ne_zero _))⟩
  searched mm inv := by
    obtain ⟨⟨free, counted⟩, quiet⟩ := inv
    exact ⟨⟨free, counted.of_memory rfl rfl rfl rfl rfl rfl⟩, quiet⟩
  allocated inv done := by
    obtain ⟨⟨free, counted⟩, quiet⟩ := inv
    obtain ⟨p, area, left, rfl, rfl, taken, zero, empty⟩ := counted.alloc Nat.one_pos
      (fun _ => quiet.resolve_left (Nat.succ_ne_zero _)) done
    obtain ⟨-, -, notTable, narrow⟩ := taken.handed_out
    exact ⟨p, rfl, ⟨left, taken, zero, empty rfl⟩, .of_memory rfl rfl rfl rfl, notTable, narrow⟩
  newTable inv user missing := by
    obtain ⟨free, counted, zero, empty⟩ := inv
    exact ⟨⟨free, counted.newTable zero user missing⟩, .inr (.inl empty.next_head)⟩
  installed inv user has absent odd := by
    obtain ⟨free, counted, -, empty⟩ := inv
    exact ⟨⟨free, counted.installed empty user has absent odd⟩, .inl rfl⟩

/-- The last reference of a page goes, or one of several. -/
theorem dropped {area : FreeArea} (counted : pg.Counted blocks free)
    (below : p < pg.count) (notFree : p ∉ free) (notTable : pg.NotTable (pg.base + p))
    (unheld : pg.ref (pg.base + p) = 0 → ∀ block ∈ blocks, ¬ InBlock block p)
    (given : pg.ref (pg.base + p) = 0 → pg.area.freePage (pg.count + 1) p 1 = some area)
    (same : pg.ref (pg.base + p) ≠ 0 → area = pg.area) :
    ∃ listed, { pg with area }.Counted blocks listed := by
  by_cases zero : pg.ref (pg.base + p) = 0
  · exact counted.giveBack_loose below notFree notTable (unheld zero) zero (given zero)
  · rw [same zero]
    exact ⟨free, counted⟩

theorem unmap (counted : pg.Counted blocks free) (user : UserPage v) (here : la / 2 ^ 12 = v)
    (fewer : rest.Sublist blocks)
    (unheld : ∀ p, pg.LastReference v p → ∀ block ∈ rest, ¬ InBlock block p)
    (done : pg.unmap pg.pde la = .ok after) :
    (∃ listed, after.Counted rest listed) ∧
      ∀ p, Entry.Present (pg.pte v) → Entry.addr (pg.pte v) = pg.base + p →
        (after.mappings (pg.base + p) = 0 → pg.area.freePage (pg.count + 1) p 1 = some after.area) ∧
        (after.mappings (pg.base + p) ≠ 0 → after.area = pg.area) := by
  obtain ⟨mapping, settled⟩ := counted.mapping.unmap here (user_small user) done
  rcases unmap_ok done here with ⟨absent, rfl⟩ | ⟨present, dropped, drop, rfl⟩
  · exact ⟨⟨free, counted.forget fewer⟩, fun p present => absurd present absent⟩
  · obtain ⟨p, below, address⟩ := counted.mapping.pool v user present
    obtain ⟨notFree, notTable⟩ := counted.mapped v p user present address
    have has := hasTable_of_present present
    rw [address] at drop
    obtain ⟨area, rfl, given, same⟩ := dropRef_ok drop
    have index : pg.base + p - pg.base = p := Nat.add_sub_cancel_left ..
    rw [index] at given
    let ref := Function.update pg.ref (pg.base + p) (pg.ref (pg.base + p) - 1)
    let cleared := ({ pg with ref }.setEntry (pg.table (v / 2 ^ 10)) (v % 2 ^ 10)
      (Entry.cleared (pg.pte v))).invlpg la
    have words : ∀ u, UserPage u → cleared.pte u = if u = v then Entry.cleared (pg.pte v) else pg.pte u :=
      fun u userU => (pte_of_memory rfl rfl).trans
        (counted.mapping.pte_setUser user has Entry.cleared_lt (user_small userU))
    have absent : ¬ Entry.Present (cleared.pte v) := by
      rw [words v user, if_pos rfl]
      exact Entry.cleared_absent
    have tables : SameTables pg cleared := ⟨rfl, rfl, rfl, settled.directory⟩
    have rewritten : cleared.Counted rest free := by
      refine (counted.forget fewer).rewritten tables (mapping.of_memory rfl rfl rfl rfl) rfl
        user ?_ ?_ ?_
      · intro u userU different
        exact (words u userU).trans (if_neg different)
      · intro q present'
        exact absurd present' absent
      · intro q _
        rw [Entry.points_absent absent]
        show Function.update pg.ref (pg.base + p) _ (pg.base + q) + _ = _
        by_cases equal : q = p
        · rw [equal, Function.update_self, Entry.points_self present address]
          omega
        · rw [Function.update_of_ne (by omega), Entry.points_other (by rw [address]; omega)]
    have plain : cleared.NotTable (pg.base + p) := tables.notTable.mpr notTable
    have lowered : cleared.ref (pg.base + p) = pg.ref (pg.base + p) - 1 := Function.update_self _ _ _
    have last : cleared.ref (pg.base + p) = 0 ↔ pg.ref (pg.base + p) = 1 := by
      rw [lowered]
      omega
    constructor
    · exact rewritten.dropped below notFree plain
        (fun zero => unheld p ⟨present, address, last.mp zero⟩)
        (fun zero => given (last.mp zero)) (fun more => same fun one => more (last.mpr one))
    · intro q _ addressQ
      have equal : q = p := by omega
      subst equal
      have exact : cleared.ref (pg.base + q) = cleared.mappings (pg.base + q) :=
        rewritten.exact q below plain
      have left : { cleared with area }.mappings (pg.base + q) = cleared.mappings (pg.base + q) :=
        mappings_congr fun u _ => pte_of_memory rfl rfl
      change ({ cleared with area }.mappings _ = 0 → _ = some area) ∧
        ({ cleared with area }.mappings _ ≠ 0 → area = pg.area)
      rw [left]
      constructor
      · intro zero
        exact given (last.mp (by rw [exact, zero]; rfl))
      · intro more
        refine same fun one => more ?_
        have zero := last.mpr one
        omega

/-- The kernel's mapping of a page is no user's. -/
theorem unmap_direct_pte (mapping : pg.Mapping) (here : la / 2 ^ 12 = directPage frame)
    (small : directPage frame < 2 ^ 20) (done : pg.unmap pg.pde la = .ok after) (user : UserPage u) :
    after.pte u = pg.pte u := by
  rcases unmap_ok done here with ⟨-, rfl⟩ | ⟨present, dropped, drop, rfl⟩
  · rfl
  · obtain ⟨area, rfl, -⟩ := dropRef_ok drop
    have has := hasTable_of_present present
    have table := mapping.notDirectory _ (by omega) has
    have word := @pte_setEntry_slot pg (pg.table (directPage frame / 2 ^ 10))
      (directPage frame % 2 ^ 10) u (Entry.cleared (pg.pte (directPage frame))) table Entry.cleared_lt
    refine (pte_of_memory rfl rfl).trans (word.trans (if_neg ?_))
    rintro ⟨hasU, same, -⟩
    have equal := mapping.unshared _ _ user.table (by omega) hasU has same
    simp only [UserPage] at user
    simp only [directPage] at equal
    omega

/-- The entry of a user page is made to map a page, and the counts have been changed for it. -/
theorem written {middle : Paging} (counted : pg.Counted blocks free) (same : SameTables pg middle)
    (mapping : middle.Mapping) (area : middle.area = pg.area)
    (words : ∀ u, UserPage u → middle.pte u = pg.pte u) (user : UserPage v)
    (has : pg.HasTable (v / 2 ^ 10)) (below : p < pg.count) (notFree : p ∉ free)
    (notTable : pg.NotTable (pg.base + p)) (small : w < 2 ^ 32) (address : Entry.addr w = pg.base + p)
    (refs : ∀ q < pg.count, middle.ref (pg.base + q) + Entry.points (pg.pte v) (pg.base + q) =
      pg.ref (pg.base + q) + Entry.points w (pg.base + q)) :
    ((middle.setEntry (pg.table (v / 2 ^ 10)) (v % 2 ^ 10) w).invlpg la).Counted blocks free ∧
      SameTables pg ((middle.setEntry (pg.table (v / 2 ^ 10)) (v % 2 ^ 10) w).invlpg la) := by
  have hasMiddle := same.tables.1.mpr has
  have table : middle.table (v / 2 ^ 10) = pg.table (v / 2 ^ 10) := same.tables.2
  obtain ⟨mappingAfter, sameAfter⟩ := @Mapping.setUser middle v w mapping user hasMiddle small
    ⟨p, by rw [same.count]; exact below, by rw [same.base]; exact address⟩
  have entries : ∀ u, UserPage u → (middle.setEntry (pg.table (v / 2 ^ 10)) (v % 2 ^ 10) w).pte u =
      if u = v then w else pg.pte u := by
    intro u userU
    have entry := mapping.pte_setUser user hasMiddle small (user_small userU)
    rwa [table, words u userU] at entry
  rw [table] at mappingAfter sameAfter
  have whole := same.trans sameAfter
  have new : ((middle.setEntry (pg.table (v / 2 ^ 10)) (v % 2 ^ 10) w).invlpg la).pte v = w :=
    (pte_of_memory rfl rfl).trans ((entries v user).trans (if_pos rfl))
  have tables : SameTables pg ((middle.setEntry (pg.table (v / 2 ^ 10)) (v % 2 ^ 10) w).invlpg la) :=
    ⟨whole.pde, whole.base, whole.count, whole.directory⟩
  refine ⟨counted.rewritten tables (mappingAfter.of_memory rfl rfl rfl rfl) area user ?_ ?_ ?_, tables⟩
  · intro u userU different
    exact (pte_of_memory rfl rfl).trans ((entries u userU).trans (if_neg different))
  · intro q _ addressQ
    rw [new, address] at addressQ
    have equal : q = p := by omega
    rw [equal]
    exact ⟨notFree, notTable⟩
  · intro q belowQ
    rw [new]
    exact refs q belowQ

/-- The kernel's mapping of a page is taken away: its count goes down, and the page is freed
if that was the last reference. -/
theorem unmap_direct_ok (mapping : pg.Mapping) (here : la / 2 ^ 12 = directPage (pg.base + q))
    (below : q < pg.count) (present : Entry.Present (pg.pte (directPage (pg.base + q))))
    (done : pg.unmap pg.pde la = .ok after) :
    ∃ area, after.ref = Function.update pg.ref (pg.base + q) (pg.ref (pg.base + q) - 1) ∧
      after.area = area ∧
      (pg.ref (pg.base + q) = 1 → pg.area.freePage (pg.count + 1) q 1 = some area) ∧
      (pg.ref (pg.base + q) ≠ 1 → area = pg.area) := by
  rcases unmap_ok done here with ⟨absent, -⟩ | ⟨-, dropped, drop, rfl⟩
  · exact absurd present absent
  · rw [mapping.direct q below present] at drop
    obtain ⟨area, rfl, given, same⟩ := dropRef_ok drop
    rw [Nat.add_sub_cancel_left] at given
    exact ⟨area, rfl, rfl, given, same⟩

/-- `map` in place of another page. -/
theorem replaced {unmapped : Paging} (counted : pg.Counted blocks free)
    (user : UserPage v) (has : pg.HasTable (v / 2 ^ 10)) (below : p < pg.count)
    (notFree : p ∉ free) (notTable : pg.NotTable (pg.base + p)) (odd : sign % 2 = 1)
    (old : Entry.Present (pg.pte v)) (belowQ : q < pg.count)
    (addressQ : Entry.addr (pg.pte v) = pg.base + q) (other : q ≠ p)
    (presentDirect : Entry.Present (pg.pte (directPage (pg.base + q))))
    (fewer : rest.Sublist blocks)
    (unheld : pg.LastReference v q → unmapped.ref (pg.base + q) = 0 →
      ∀ block ∈ rest, ¬ InBlock block q)
    (unmap : ({ pg with ref := Function.update pg.ref (pg.base + p) (pg.ref (pg.base + p) + 1) } :
      Paging).unmap pg.pde (Entry.getPgAddrLa (pg.pte v)) = .ok unmapped) :
    ∃ listed, ((unmapped.setEntry (pg.table (v / 2 ^ 10)) (v % 2 ^ 10) (Entry.mapped
      (unmapped.entry (pg.table (v / 2 ^ 10)) (v % 2 ^ 10)) (pg.base + p) sign)).invlpg
        la).Counted rest listed := by
  have room := counted.mapping.room
  have narrow : pg.base + p < 2 ^ 20 := by omega
  let raised := { pg with ref := Function.update pg.ref (pg.base + p) (pg.ref (pg.base + p) + 1) }
  have mapping : raised.Mapping := counted.mapping.of_memory rfl rfl rfl rfl
  obtain ⟨directLa, inside⟩ := Mapping.direct_la counted.mapping belowQ addressQ
  obtain ⟨notFreeQ, notTableQ⟩ := counted.mapped v q user old addressQ
  obtain ⟨mappingAfter, settled⟩ := mapping.unmap directLa inside unmap
  have untouched := fun u userU => @unmap_direct_pte raised unmapped (pg.base + q) u _ mapping
    directLa inside unmap userU
  obtain ⟨area, refs, areas, given, same⟩ := @unmap_direct_ok raised unmapped q _ mapping directLa
    belowQ presentDirect unmap
  have sameRef : raised.ref (pg.base + q) = pg.ref (pg.base + q) :=
    Function.update_of_ne (by omega) _ _
  change unmapped.ref = Function.update raised.ref (pg.base + q) _ at refs
  rw [sameRef] at refs
  let middle := { unmapped with area := pg.area }
  let entry := unmapped.entry (pg.table (v / 2 ^ 10)) (v % 2 ^ 10)
  have tables : SameTables pg middle :=
    ⟨settled.pde, settled.base, settled.count, settled.directory⟩
  have counts : ∀ r < pg.count, middle.ref (pg.base + r) + Entry.points (pg.pte v) (pg.base + r) =
      pg.ref (pg.base + r) + Entry.points (Entry.mapped entry (pg.base + p) sign) (pg.base + r) := by
    intro r _
    rw [Entry.points_mapped narrow odd]
    show unmapped.ref (pg.base + r) + _ = _
    rw [refs]
    by_cases isQ : r = q
    · rw [isQ, Function.update_self, Entry.points_self old addressQ, if_neg other]
      omega
    · rw [Function.update_of_ne (by omega), Entry.points_other (by rw [addressQ]; omega)]
      show Function.update pg.ref (pg.base + p) _ (pg.base + r) + 0 = _
      by_cases isP : r = p
      · rw [isP, Function.update_self, if_pos rfl]
        omega
      · rw [Function.update_of_ne (by omega), if_neg isP]
  obtain ⟨written, wholeTables⟩ := @written pg rest free p v
    (Entry.mapped entry (pg.base + p) sign) la middle (counted.forget fewer) tables
    (mappingAfter.of_memory rfl rfl rfl rfl) rfl
    (fun u userU => (pte_of_memory rfl rfl).trans ((untouched u userU).trans (pte_of_memory rfl rfl)))
    user has below notFree notTable Entry.set_lt (Entry.addr_set narrow) counts
  have last : unmapped.ref (pg.base + q) = 0 ↔ pg.ref (pg.base + q) = 1 := by
    rw [refs, Function.update_self]
    omega
  let final := (middle.setEntry (pg.table (v / 2 ^ 10)) (v % 2 ^ 10)
    (Entry.mapped entry (pg.base + p) sign)).invlpg la
  have base : final.base = pg.base := wholeTables.base
  have count : final.count = pg.count := wholeTables.count
  have ended := @dropped final rest free q area written
  rw [base, count] at ended
  obtain ⟨listed, whole⟩ := ended belowQ notFreeQ (wholeTables.notTable.mpr notTableQ)
    (fun zero => unheld ⟨old, addressQ, last.mp zero⟩ zero)
    (fun zero => given (sameRef.trans (last.mp zero)))
    (fun more => same fun one => more (last.mpr (sameRef.symm.trans one)))
  exact ⟨listed, whole.of_memory rfl settled.base settled.count rfl areas rfl⟩

/-- `map` of a page that was handed out, once there is a table. -/
theorem map {alloc : Paging → Except Halt (Option Nat × Paging)} (counted : pg.Counted blocks free)
    (user : UserPage v) (here : la / 2 ^ 12 = v) (has : pg.HasTable (v / 2 ^ 10)) (below : p < pg.count)
    (notFree : p ∉ free) (notTable : pg.NotTable (pg.base + p)) (odd : sign % 2 = 1)
    (direct : ∀ q, q ≠ p → Entry.Present (pg.pte v) → Entry.addr (pg.pte v) = pg.base + q →
      Entry.Present (pg.pte (directPage (pg.base + q))))
    (fewer : rest.Sublist blocks)
    (unheld : ∀ q, pg.LastReference v q → after.ref (pg.base + q) = 0 →
      ∀ block ∈ rest, ¬ InBlock block q)
    (done : pg.map alloc pg.pde la (pg.base + p) sign = .ok after) :
    ∃ listed, after.Counted rest listed := by
  have room := counted.mapping.room
  have narrow : pg.base + p < 2 ^ 20 := by omega
  let raised := { pg with ref := Function.update pg.ref (pg.base + p) (pg.ref (pg.base + p) + 1) }
  have words : ∀ u, UserPage u → raised.pte u = pg.pte u := fun u _ => pte_of_memory rfl rfl
  have kept := counted.forget fewer
  rcases map_ok done has here with ⟨absent, rfl⟩ | ⟨old, same, rfl⟩ |
      ⟨old, different, unmapped, unmap, rfl⟩
  · refine ⟨free, (@written pg rest free p v (Entry.mapped (pg.pte v) (pg.base + p) sign) la raised kept
      ⟨rfl, rfl, rfl, rfl⟩ (counted.mapping.of_memory rfl rfl rfl rfl) rfl words user has below notFree
      notTable Entry.set_lt (Entry.addr_set narrow) ?_).1⟩
    intro q _
    rw [Entry.points_absent absent, Entry.points_mapped narrow odd]
    show Function.update pg.ref (pg.base + p) _ (pg.base + q) + 0 = _
    by_cases equal : q = p
    · rw [equal, Function.update_self, if_pos rfl]
      omega
    · rw [Function.update_of_ne (by omega), if_neg equal]
  · refine ⟨free, (@written pg rest free p v (Entry.mapped (pg.pte v) (pg.base + p) sign) la pg kept
      ⟨rfl, rfl, rfl, rfl⟩ counted.mapping rfl (fun _ _ => rfl) user has below notFree notTable
      Entry.set_lt (Entry.addr_set narrow) ?_).1⟩
    intro q _
    rw [Entry.points_mapped narrow odd]
    by_cases equal : q = p
    · rw [equal, Entry.points_self old same, if_pos rfl]
    · rw [Entry.points_other (by rw [same]; omega), if_neg equal]
  · obtain ⟨q, belowQ, addressQ⟩ := counted.mapping.pool v user old
    have other : q ≠ p := fun equal => different (equal ▸ addressQ)
    exact counted.replaced user has below notFree notTable odd old belowQ addressQ other
      (direct q other old addressQ) fewer (unheld q) unmap

end Counted

end Paging

namespace VmState

open Paging PageState

variable {state next : VmState} {op : VmOp}

/-- No page is evicted, no page is given back that is mapped or by its raised pointer, and `map`
makes a present entry, in place of another only if the kernel still maps that page. -/
def KeepsCount (state : VmState) : VmOp → Prop
  | .alloc n => n = 1 → state.pg.Quiet
  | .free page n => page.raised = false ∧
      ∀ q, InBlock (page.page, n) q → state.pg.ref (state.pg.base + q) = 0
  | .fault _ _ => state.pg.Quiet
  | .swapIn _ => state.pg.Quiet
  | .swapOut n => n = 0 ∨ state.pg.area.nodes.next .vmFifo = .vmFifo
  | .map la page bitsign => bitsign % 2 = 1 ∧
      (state.pg.HasTable (la / pageSize / 2 ^ 10) ∨ state.pg.Quiet) ∧
      ∀ p, p ≠ page → Entry.Present (state.pg.pte (la / pageSize)) →
        Entry.addr (state.pg.pte (la / pageSize)) = state.pg.base + p →
        Entry.Present (state.pg.pte (directPage (state.pg.base + p)))
  | _ => True

/-- The counts are exact. -/
def InTally (state : VmState) : Prop := ∃ free, state.pg.Counted state.blocks free

theorem Start.inTally (start : Start state) : InTally state := by
  obtain ⟨free, queues, reserved⟩ := start.queues
  have absent : ∀ v, UserPage v → ¬ Entry.Present (state.pg.pte v) := by
    intro v user present
    exact start.tables _ user.table (hasTable_of_present present)
  refine ⟨free, start.mapping, queues.sound, .inl queues.ring, reserved, ?_, ?_⟩
  · intro v p user present
    exact absurd present (absent v user)
  · intro p below notTable
    rw [start.ref p below notTable, mappings_eq_zero fun v user present => absurd present (absent v user)]
    rfl

theorem InTally.alloc {n : Nat} (inTally : InTally state) (allowed : KeepsCount state (.alloc n))
    (moved : state.step (.alloc n) = some next) : InTally next := by
  obtain ⟨free, counted⟩ := inTally
  simp only [step] at moved
  split at moved
  · rename_i positive
    obtain ⟨⟨found, pg⟩, allocated, rfl⟩ := Option.map_eq_some_iff.mp moved
    have done := ok_of_toOption allocated
    cases found with
    | none =>
        rw [allocPage_none done]
        exact ⟨free, counted⟩
    | some frame =>
        obtain ⟨p, area, left, rfl, rfl, kept, -⟩ := counted.alloc positive allowed done
        have index : state.pg.base + p - state.pg.base = p := Nat.add_sub_cancel_left ..
        refine ⟨left, ?_⟩
        simp only [index]
        exact kept
  · cases moved

theorem InTally.free {page : PagePtr} {n : Nat} (inTally : InTally state)
    (allowed : KeepsCount state (.free page n)) (moved : state.step (.free page n) = some next) :
    InTally next := by
  obtain ⟨free, counted⟩ := inTally
  simp only [step] at moved
  split at moved
  · rename_i held
    have member := List.contains_iff_mem.mp held
    obtain ⟨pg, freed, rfl⟩ := Option.map_eq_some_iff.mp moved
    have done := ok_of_toOption freed
    have index : state.pg.base + page.page - state.pg.base = page.page := Nat.add_sub_cancel_left ..
    obtain ⟨area, listed, given, kept⟩ := counted.giveBack member allowed.2
    rw [freePage_ok (by rw [index]; exact given)] at done
    cases done
    exact ⟨listed, kept⟩
  · cases moved

theorem InTally.map {la page bitsign : Nat} (inTally : InTally state)
    (allowed : KeepsCount state (.map la page bitsign))
    (moved : state.step (.map la page bitsign) = some next) : InTally next := by
  simp only [step] at moved
  split at moved
  · rename_i guard
    obtain ⟨user, block, held, inBlock⟩ := guard
    obtain ⟨pg, mapped, rfl⟩ := Option.map_eq_some_iff.mp moved
    have done := ok_of_toOption mapped
    have here : la / 2 ^ 12 = la / pageSize := rfl
    have called := done
    unfold Paging.map at called
    obtain ⟨⟨pte, middle⟩, got, ended⟩ := ok_of_bind called
    obtain ⟨odd, quiet, direct⟩ := allowed
    have ready : (∃ free, state.pg.Counted state.blocks free) ∧
        (0 + state.pg.tableCost (la / pageSize) = 0 ∨ state.pg.Quiet) := by
      refine ⟨inTally, quiet.imp_left fun has => ?_⟩
      rw [tableCost, if_pos has]
    rcases Counted.discipline.getPte ready user here got with
      ⟨rfl, -⟩ | ⟨⟨⟨free, counted⟩, -⟩, has, rfl, ⟨pde, base, count⟩, untouched⟩
    · cases ended
    · rw [map_of_getPte got has here pde, ← base] at done
      -- A page is replaced only where there was a table before.
      have same : Entry.Present (middle.pte (la / pageSize)) → middle = state.pg := by
        intro present
        rcases untouched with same | ⟨-, absent⟩
        · exact same
        · exact absurd present absent
      obtain ⟨notFree, below⟩ := counted.sound.outside block held page inBlock
      obtain ⟨listed, kept⟩ := counted.map user here has below notFree
        (counted.reserved page (.inr ⟨block, held, inBlock⟩)) odd
        (fun q other present => by
          obtain rfl := same present
          exact direct q other present)
        (show (remaining state.pg pg state.blocks).Sublist state.blocks from List.filter_sublist)
        (fun q last gone block member => by
          obtain rfl := same last.1
          exact remaining_unheld last.2.2 gone member)
        done
      exact ⟨listed, kept⟩
  · cases moved

/-- `unmap` of a user page gives the page it was mapped to back with its last mapping. -/
theorem InTally.unmap {la : Nat} (inTally : InTally state)
    (moved : state.step (.unmap la) = some next) : InTally next ∧
      ∀ p, Entry.Present (state.pg.pte (la / pageSize)) →
        Entry.addr (state.pg.pte (la / pageSize)) = state.pg.base + p →
        (next.pg.mappings (state.pg.base + p) = 0 →
          state.pg.area.freePage (state.pg.count + 1) p 1 = some next.pg.area) ∧
        (next.pg.mappings (state.pg.base + p) ≠ 0 → next.pg.area = state.pg.area) := by
  obtain ⟨free, counted⟩ := inTally
  simp only [step] at moved
  split at moved
  · rename_i user
    obtain ⟨pg, unmapped, rfl⟩ := Option.map_eq_some_iff.mp moved
    have done := ok_of_toOption unmapped
    have here : la / 2 ^ 12 = la / pageSize := rfl
    refine counted.unmap user here
      (show (remaining state.pg pg state.blocks).Sublist state.blocks from List.filter_sublist) ?_ done
    intro p last block member
    refine remaining_unheld last.2.2 ?_ member
    exact unmap_last done here last
  · cases moved

theorem InTally.step (inTally : InTally state) (allowed : KeepsCount state op)
    (moved : state.step op = some next) : InTally next := by
  cases op with
  | alloc n => exact inTally.alloc allowed moved
  | free page n => exact inTally.free allowed moved
  | fault cr2 isWrite =>
      simp only [VmState.step] at moved
      split at moved
      · rename_i guard
        obtain ⟨pg, faulted, rfl⟩ := Option.map_eq_some_iff.mp moved
        exact (Counted.discipline.doSwap ⟨inTally, .inr allowed⟩ guard.1 guard.2
          (ok_of_toOption faulted)).1
      · cases moved
  | swapIn v =>
      simp only [VmState.step] at moved
      split at moved
      · rename_i guard
        obtain ⟨pg, swapped, rfl⟩ := Option.map_eq_some_iff.mp moved
        exact (Counted.discipline.swapIn ⟨inTally, .inr allowed⟩ guard.1 guard.2
          (ok_of_toOption swapped)).1
      · cases moved
  | swapOut n =>
      obtain ⟨pg, swapped, rfl⟩ := Option.map_eq_some_iff.mp moved
      have done := ok_of_toOption swapped
      rcases allowed with rfl | empty
      · rw [swapOut_zero] at done
        cases done
        exact inTally
      · rw [swapOut_empty empty] at done
        cases done
        exact inTally
  | map la page bitsign => exact inTally.map allowed moved
  | unmap la => exact (inTally.unmap moved).1
  | access la =>
      obtain ⟨free, counted⟩ := inTally
      simp only [VmState.step] at moved
      split at moved
      · cases moved
        exact ⟨free, counted.of_memory rfl rfl rfl rfl rfl rfl⟩
      · cases moved
  | loadCr3 =>
      obtain ⟨free, counted⟩ := inTally
      cases moved
      exact ⟨free, counted.of_memory rfl rfl rfl rfl rfl rfl⟩

theorem inTally_of_reachable (reached : machine.ReachableWithin KeepsCount state) : InTally state := by
  refine reached.invariant ?_ ?_
  · intro state start
    exact Start.inTally start
  · intro before op after inTally allowed moved
    exact inTally.step allowed moved

/-- As long as no page is evicted, a page that is no table has as many references as
mappings, a free page has none, and `unmap` frees a page with its last mapping. -/
theorem ref_counts_mappings (reached : machine.ReachableWithin KeepsCount state) :
    (∀ p < state.pg.count, state.pg.NotTable (state.pg.base + p) →
        state.pg.ref (state.pg.base + p) = state.pg.mappings (state.pg.base + p)) ∧
      (∀ p, state.pg.OnList .head p → state.pg.ref (state.pg.base + p) = 0) ∧
      ∀ la next p, state.step (.unmap la) = some next →
        Entry.Present (state.pg.pte (la / pageSize)) →
        Entry.addr (state.pg.pte (la / pageSize)) = state.pg.base + p →
        (next.pg.mappings (state.pg.base + p) = 0 →
          state.pg.area.freePage (state.pg.count + 1) p 1 = some next.pg.area) ∧
        (next.pg.mappings (state.pg.base + p) ≠ 0 → next.pg.area = state.pg.area) := by
  have inTally := inTally_of_reachable reached
  obtain ⟨free, counted⟩ := id inTally
  refine ⟨counted.exact, ?_, ?_⟩
  · rintro p ⟨list, ring, member⟩
    have injective : Function.Injective (List.map PageNode.page) :=
      List.map_injective_iff.mpr fun _ _ => PageNode.page.inj
    obtain rfl := injective (ring.unique counted.sound.ring)
    exact counted.ref_free member
  · intro la next p moved present address
    exact (inTally.unmap moved).2 p present address

/-- A page is handed out and mapped. -/
theorem ref_counts_mappings_mapped :
    ∃ state, machine.run fourFrames [.alloc 1, .map 0x400000 0 7] = some state ∧
      state.pg.ref (state.pg.base + 0) = 1 ∧ state.pg.mappings (state.pg.base + 0) = 1 := by
  have runs : (machine.step fourFrames (.alloc 1)).any (fun first =>
      decide (first.pg.area.nodes.next .vmFifo = .vmFifo ∧ ¬ Entry.Present (first.pg.pte 0x400)) &&
      (machine.step first (.map 0x400000 0 7)).any fun second =>
        decide ((0, 1) ∈ second.blocks ∧ 0 < second.pg.count ∧
          second.pg.ref (second.pg.base + 0) = 1)) = true := by
    decide +kernel
  obtain ⟨first, allocated, checked⟩ := (Option.any_eq_true _ _).mp runs
  simp only [Bool.and_eq_true, decide_eq_true_eq] at checked
  obtain ⟨⟨empty, absent⟩, checked⟩ := checked
  obtain ⟨second, mapped, checked⟩ := (Option.any_eq_true _ _).mp checked
  obtain ⟨held, below, one⟩ := decide_eq_true_eq.mp checked
  have quiet : KeepsCount fourFrames (.alloc 1) := fun _ => .inl rfl
  have allowed : KeepsCount first (.map 0x400000 0 7) :=
    ⟨rfl, .inr (.inl empty), fun p _ present => absurd present absent⟩
  have reached : machine.ReachableWithin KeepsCount second :=
    .step (.step (.start fourFrames_start) quiet allocated) allowed mapped
  obtain ⟨free, counted⟩ := inTally_of_reachable reached
  have notTable := counted.reserved 0 (.inr ⟨(0, 1), held, Nat.le_refl _, Nat.one_pos⟩)
  have exact := (ref_counts_mappings reached).1 0 below notTable
  refine ⟨second, by simp [Machine.run_cons, allocated, mapped], one, ?_⟩
  omega

/-- A page is touched and `alloc_page` evicts it: it is free and has a reference. -/
theorem evicted_page_referenced :
    ¬ ∀ state, machine.Reachable state → ∀ p, state.pg.OnList .head p →
      state.pg.ref (state.pg.base + p) = 0 := by
  intro always
  have runs : (machine.step fourFrames (.fault 0x400000 false)).any (fun first =>
      (machine.step first (.alloc 1)).any fun second =>
        decide (second.pg.area.nodes.next .head = .page 1 ∧
          second.pg.ref (second.pg.base + 1) = 1)) = true := by
    decide +kernel
  obtain ⟨first, faulted, checked⟩ := (Option.any_eq_true _ _).mp runs
  obtain ⟨second, allocated, checked⟩ := (Option.any_eq_true _ _).mp checked
  obtain ⟨front, one⟩ := decide_eq_true_eq.mp checked
  have faults : KeepsApart fourFrames (.fault 0x400000 false) := trivial
  have allocs : KeepsApart first (.alloc 1) := trivial
  obtain ⟨free, fifo, ordered⟩ := inOrder_of_reachable
    (.step (.step (.start fourFrames_start) faults faulted) allocs allocated)
  have member : 1 ∈ free := by
    have next := ordered.rings.ring.next_closed List.mem_cons_self
    rw [front] at next
    simpa using next
  have zero := always second (.step (.step (.start fourFrames_start) faulted) allocated) 1
    ⟨free, ordered.rings.ring, member⟩
  omega

end VmState

end WindOs.Mm
