import WindOs.Mm.PageQueue
import WindOs.Mm.PageTables

namespace WindOs.Mm

open Data

/-! # Pages that are absent, resident or on disk

`contents` is the flat memory that the user pages make up, wherever they are at
the moment.  Every part of a page fault keeps it.
-/

namespace Paging

variable {pg after : Paging} {blocks : List (Nat × Nat)} {list : List Nat}
  {frame i v u w la addr : Nat}

/-- No entry of the table maps the frame. -/
def Unmapped (pg : Paging) (table frame : Nat) : Prop :=
  ∀ j < 1024, ¬ (Entry.Present (pg.entry table j) ∧ Entry.addr (pg.entry table j) = frame)

instance (pg : Paging) (table frame : Nat) : Decidable (pg.Unmapped table frame) :=
  Nat.decidableBallLT 1024 fun j _ =>
    ¬ (Entry.Present (pg.entry table j) ∧ Entry.addr (pg.entry table j) = frame)

instance (i : Nat) : Decidable (UserTable i) := inferInstanceAs (Decidable (_ ∧ _))

/-- The frame is not table `i`, and no user page is mapped to it there. -/
def Misses (pg : Paging) (frame i : Nat) : Prop :=
  pg.HasTable i → pg.table i ≠ frame ∧ (UserTable i → pg.Unmapped (pg.table i) frame)

instance (pg : Paging) (frame i : Nat) : Decidable (pg.Misses frame i) :=
  inferInstanceAs (Decidable (_ → _))

/-- A frame that is neither mapped nor a page table. -/
def Fresh (pg : Paging) (frame : Nat) : Prop :=
  frame < 2 ^ 20 ∧ frame ≠ pg.pde ∧ ∀ i < 1024, pg.Misses frame i

instance (pg : Paging) (frame : Nat) : Decidable (pg.Fresh frame) :=
  @instDecidableAnd _ _ _ (@instDecidableAnd _ _ _
    (Nat.decidableBallLT 1024 fun i _ => pg.Misses frame i))

/-- `alloc_page(1)`, which halts unless it returns a fresh frame. -/
def allocFresh [Aliases] (pg : Paging) : Except Halt (Option Nat × Paging) :=
  match pg.allocPage 1 with
  | .ok (some frame, pg) => if pg.Fresh frame then .ok (some frame, pg) else .error .allocator
  | .ok (none, _) => .error .allocator
  | .error halt => .error halt

/-- The page that `alloc_page(1)` takes next is linked by its physical pointer. -/
def FirstPhysical [Aliases] (pg : Paging) : Prop :=
  ∀ p, pg.area.nodes.next .head = .page p → Aliases.wild pg.area p = false

/-- The first page of the list is linked by its physical pointer, and it is not the last when an
evicted page goes in front of the last one. -/
def StaysPhysical [Aliases] (pg : Paging) : Prop :=
  ∀ q, pg.area.nodes.next .head = .page q → Aliases.wild pg.area q = false ∧
    (pg.area.nodes.next (.page q) = .head → pg.area.nodes.next .vmFifo ≠ .vmFifo →
      Aliases.wildRaised = false)

/-- The same of the second page of the list, with the eviction of an `alloc_page(1)` that takes the
first one. -/
def SecondPhysical [Aliases] (pg : Paging) : Prop :=
  ∀ p q, pg.area.nodes.next .head = .page p → pg.area.nodes.next (.page p) = .page q →
    Aliases.wild pg.area q = false ∧
      (pg.area.nodes.next (.page q) = .head → pg.isVmmInited →
        pg.area.nodes.next .vmFifo ≠ .vmFifo → Aliases.wildRaised = false)

/-- The slot on disk of a page is one more than its number. -/
def slotWord (v : Nat) : Nat := 2 ^ 8 * (v + 1)

/-- The byte at a user address, `none` while the page has never been touched. -/
def contents (pg : Paging) (addr : Nat) : Option UInt8 :=
  if Entry.Present (pg.pte (addr / pageSize)) then
    some (pg.memory (Entry.addr (pg.pte (addr / pageSize))) (addr % pageSize))
  else if pg.pte (addr / pageSize) = 0 then none
  else some (pg.disk.read (sector (addr / pageSize + 1)) (pageSize / Disk.sectSize) default
    (addr % pageSize))

/-- What `swap_out` makes of page `v`, resident in `frame`, and of the two lists. -/
def toDisk (pg : Paging) (v frame : Nat) (area : FreeArea) : Paging :=
  { pg.setEntry (pg.table (v / 2 ^ 10)) (v % 2 ^ 10) (slotWord v) with
    disk := pg.disk.write (sector (v + 1)) (pageSize / Disk.sectSize) (pg.memory frame)
    area := area }

/-- The FIFO holds these frames, in the order of their arrival. -/
def Queued [Aliases] [PageState.Keeper] (pg : Paging) (blocks : List (Nat × Nat))
    (list : List Nat) : Prop :=
  ∃ free fifo, list = fifo.map (pg.base + ·) ∧
    PageState.Keeper.InOrder pg.count { area := pg.area, blocks } free fifo

/-- The user pages, with the blocks that are handed out and the frames of the FIFO. -/
structure Sound [Aliases] [PageState.Keeper] (pg : Paging) (blocks : List (Nat × Nat))
    (list : List Nat) : Prop where
  layout : pg.Layout
  queued : pg.Queued blocks list
  words : ∀ v, UserPage v → pg.pte v = 0 ∨ pg.pte v = slotWord v ∨
    Entry.Present (pg.pte v) ∧ Entry.addr (pg.pte v) ∈ list ∧
      pg.va (Entry.addr (pg.pte v)) = pageSize * v
  mapped : ∀ frame ∈ list, ∃ v, UserPage v ∧ pg.va frame = pageSize * v ∧
    Entry.Present (pg.pte v) ∧ Entry.addr (pg.pte v) = frame
  plain : ∀ frame ∈ list, pg.Plain frame

/-- What a step that moves pages may not change. -/
structure Kept (pg after : Paging) : Prop where
  mm : after.mm = pg.mm
  pde : after.pde = pg.pde
  base : after.base = pg.base
  tables : ∀ i, UserTable i → pg.HasTable i → after.HasTable i ∧ after.table i = pg.table i
  words : ∀ v, UserPage v → ¬ Entry.Present (pg.pte v) → after.pte v = pg.pte v
  contents : ∀ addr, UserPage (addr / pageSize) → after.contents addr = pg.contents addr

/-- A step that makes no table either. -/
structure Moved (pg after : Paging) : Prop extends Kept pg after where
  noTable : ∀ i, UserTable i → after.HasTable i → pg.HasTable i

theorem Kept.refl (pg : Paging) : Kept pg pg :=
  ⟨rfl, rfl, rfl, fun _ _ has => ⟨has, rfl⟩, fun _ _ _ => rfl, fun _ _ => rfl⟩

theorem Kept.trans {middle : Paging} (first : Kept pg middle) (second : Kept middle after) :
    Kept pg after where
  mm := second.mm.trans first.mm
  pde := second.pde.trans first.pde
  base := second.base.trans first.base
  tables i user has := by
    obtain ⟨hasMiddle, sameMiddle⟩ := first.tables i user has
    obtain ⟨hasAfter, sameAfter⟩ := second.tables i user hasMiddle
    exact ⟨hasAfter, sameAfter.trans sameMiddle⟩
  words v user absent := by
    have same := first.words v user absent
    rw [second.words v user (by rw [same]; exact absent), same]
  contents addr user := (second.contents addr user).trans (first.contents addr user)

theorem Moved.refl (pg : Paging) : Moved pg pg := ⟨.refl pg, fun _ _ has => has⟩

theorem Moved.trans {middle : Paging} (first : Moved pg middle) (second : Moved middle after) :
    Moved pg after :=
  ⟨first.toKept.trans second.toKept,
    fun i user has => first.noTable i user (second.noTable i user has)⟩

theorem slotWord_lt (user : UserPage v) : slotWord v < 2 ^ 32 := by
  simp only [UserPage] at user
  simp only [slotWord]
  omega

theorem slotWord_absent : ¬ Entry.Present (slotWord v) := by
  simp only [Entry.present_iff, slotWord]
  omega

theorem slotWord_ne_zero : slotWord v ≠ 0 := by
  simp only [slotWord]
  omega

theorem sector_eq (user : UserPage v) : sector (v + 1) = 8 * (v + 1) := by
  simp only [UserPage] at user
  simp only [sector, pageSize, Disk.sectSize]
  omega

theorem sector_slot : sector (v + 1) = 8 * ((v + 1) % 2 ^ 20) := by
  simp only [sector, pageSize, Disk.sectSize]
  omega

/-- The slot of the last page of all wraps around to 0, which no other page has. -/
theorem sector_apart (smallU : u < 2 ^ 20) (smallV : v < 2 ^ 20) (different : u ≠ v) :
    sector (u + 1) + 8 ≤ sector (v + 1) ∨ sector (v + 1) + 8 ≤ sector (u + 1) := by
  rw [sector_slot, sector_slot]
  omega

theorem writeOut_entry {page : Nat} (small : pg.va page < 2 ^ 32) :
    (pg.writeOut page frame i).entry frame i = slotWord (pg.va page / pageSize) := by
  have fits : slotWord (pg.va page / pageSize) < 2 ^ 32 := by
    simp only [slotWord, pageSize]
    omega
  have word : 2 ^ 8 * (pg.va page / pageSize + 1) % 2 ^ 32 = slotWord (pg.va page / pageSize) :=
    Nat.mod_eq_of_lt fits
  have written := @entry_setEntry_self pg frame i _ fits
  rw [← word] at written ⊢
  exact written

/-- The word that `swap_out` leaves in an entry maps nothing, `swap_read` finds the
sectors in it that were given to `swap_write`, and two pages have no sector in common. -/
theorem swap_slot_codec {page : Nat} (small : pg.va page < 2 ^ 32) :
    let word := (pg.writeOut page frame i).entry frame i
    ¬ Entry.Present word ∧ sector (word / 2 ^ 8) = sector (pg.va page / pageSize + 1) ∧
      (pg.writeOut page frame i).disk = pg.disk.write (sector (word / 2 ^ 8))
        (pageSize / Disk.sectSize) (pg.memory page) ∧
      ∀ other < 2 ^ 32, other / pageSize ≠ pg.va page / pageSize →
        sector (word / 2 ^ 8) + pageSize / Disk.sectSize ≤ sector (other / pageSize + 1) ∨
          sector (other / pageSize + 1) + pageSize / Disk.sectSize ≤ sector (word / 2 ^ 8) := by
  intro word
  have coded : word = slotWord (pg.va page / pageSize) := writeOut_entry small
  have decoded : word / 2 ^ 8 = pg.va page / pageSize + 1 := by
    rw [coded, slotWord]
    omega
  rw [decoded]
  refine ⟨by rw [coded]; exact slotWord_absent, rfl, rfl, ?_⟩
  intro other smallOther different
  have pages : ∀ addr, addr < 2 ^ 32 → addr / pageSize < 2 ^ 20 := by
    intro addr below
    simp only [pageSize]
    omega
  exact sector_apart (pages _ small) (pages _ smallOther) different.symm

/-- The last page of the address space, whose slot wraps around, and the first. -/
theorem swap_slot_codec_last :
    ∃ (pg : Paging) (word : Nat), (pg.writeOut 0 0 0).entry 0 0 = word ∧ pg.va 0 = 0xFFFFF000 ∧
      ¬ Entry.Present word ∧ sector (word / 2 ^ 8) = 0 ∧
      sector (word / 2 ^ 8) + pageSize / Disk.sectSize ≤ sector (0 / pageSize + 1) := by
  let pg : Paging :=
    { memory := fun _ => Bytes.zero
      disk := fun _ => Bytes.zero
      ref := fun _ => 0
      va := fun _ => 0xFFFFF000
      area := FreeArea.pageInit { next := id, prev := id } 1
      count := 1
      base := 0
      isVmmInited := true
      mm := VmaList.oneVma { vmmStart := 0, vmmEnd := 0, flags := 0 }
      pde := 1
      tlb := fun _ => none }
  obtain ⟨absent, same, -, apart⟩ := @swap_slot_codec pg 0 0 0 (by decide)
  refine ⟨pg, _, rfl, rfl, absent, same.trans (by decide), ?_⟩
  refine (apart 0 (by decide) (by decide)).resolve_right ?_
  rw [same]
  decide

theorem contents_resident (present : Entry.Present (pg.pte (addr / pageSize))) :
    pg.contents addr = some (pg.memory (Entry.addr (pg.pte (addr / pageSize))) (addr % pageSize)) :=
  if_pos present

theorem contents_absent (absent : pg.pte (addr / pageSize) = 0) : pg.contents addr = none := by
  rw [contents, absent, if_neg Entry.not_present_zero, if_pos rfl]

theorem contents_swapped (swapped : pg.pte (addr / pageSize) = slotWord (addr / pageSize)) :
    pg.contents addr = some (pg.disk.read (sector (addr / pageSize + 1))
      (pageSize / Disk.sectSize) default (addr % pageSize)) := by
  rw [contents, swapped, if_neg slotWord_absent, if_neg slotWord_ne_zero]

/-- Pages other than `v` keep what they hold when their words, their frames and
their sectors stay the same. -/
theorem contents_congr (words : after.pte (addr / pageSize) = pg.pte (addr / pageSize))
    (memory : Entry.Present (pg.pte (addr / pageSize)) →
      after.memory (Entry.addr (pg.pte (addr / pageSize))) (addr % pageSize) =
        pg.memory (Entry.addr (pg.pte (addr / pageSize))) (addr % pageSize))
    (disk : ¬ Entry.Present (pg.pte (addr / pageSize)) → pg.pte (addr / pageSize) ≠ 0 →
      after.disk.read (sector (addr / pageSize + 1)) (pageSize / Disk.sectSize) default
        (addr % pageSize) = pg.disk.read (sector (addr / pageSize + 1))
          (pageSize / Disk.sectSize) default (addr % pageSize)) :
    after.contents addr = pg.contents addr := by
  rw [contents, contents, words]
  by_cases present : Entry.Present (pg.pte (addr / pageSize))
  · rw [if_pos present, if_pos present, memory present]
  · rw [if_neg present, if_neg present]
    by_cases absent : pg.pte (addr / pageSize) = 0
    · rw [if_pos absent, if_pos absent]
    · rw [if_neg absent, if_neg absent, disk present absent]

theorem Fresh.plain (fresh : pg.Fresh frame) : pg.Plain frame := by
  refine ⟨fresh.2.1, ?_⟩
  intro i user has
  exact (fresh.2.2 i (by simp only [UserTable] at user; omega) has).1

section Physical

theorem next_first {q : Nat} {front back : List Nat}
    (ring : pg.area.nodes.IsRing .head ((front ++ q :: back).map .page)) :
    pg.area.nodes.next (.page q) = .head ↔ back = [] := by
  rw [List.map_append, List.map_cons] at ring
  rw [ring.next_member]
  cases back <;> simp

variable [Aliases] {free : List Nat}

theorem firstPhysical_iff (ring : pg.area.nodes.IsRing .head (free.map .page)) :
    pg.FirstPhysical ↔ ∀ q back, free = q :: back → Aliases.wild pg.area q = false := by
  constructor
  · rintro physical q back rfl
    exact physical q ring.next_head
  · intro tame q first
    cases free with
    | nil => cases ring.next_head.symm.trans first
    | cons r back =>
        obtain rfl := PageNode.page.inj (ring.next_head.symm.trans first)
        exact tame r back rfl

theorem staysPhysical_iff (ring : pg.area.nodes.IsRing .head (free.map .page)) :
    pg.StaysPhysical ↔ ∀ q back, free = q :: back → Aliases.wild pg.area q = false ∧
      (back = [] → pg.area.nodes.next .vmFifo ≠ .vmFifo → Aliases.wildRaised = false) := by
  constructor
  · rintro stays q back rfl
    rw [← @next_first pg q [] back ring]
    exact stays q ring.next_head
  · intro stays q first
    cases free with
    | nil => cases ring.next_head.symm.trans first
    | cons r back =>
        obtain rfl := PageNode.page.inj (ring.next_head.symm.trans first)
        rw [@next_first pg r [] back ring]
        exact stays r back rfl

theorem secondPhysical_iff {p : Nat} (ring : pg.area.nodes.IsRing .head ((p :: free).map .page)) :
    pg.SecondPhysical ↔ ∀ q back, free = q :: back → Aliases.wild pg.area q = false ∧
      (back = [] → pg.isVmmInited → pg.area.nodes.next .vmFifo ≠ .vmFifo →
        Aliases.wildRaised = false) := by
  have next : pg.area.nodes.next (.page p) = (free.map PageNode.page).headD .head :=
    Links.IsRing.next_member (show pg.area.nodes.IsRing .head ([] ++ .page p :: free.map .page) from ring)
  constructor
  · rintro second q back rfl
    rw [← @next_first pg q [p] back ring]
    exact second p q ring.next_head next
  · intro second r q first onward
    obtain rfl := PageNode.page.inj (ring.next_head.symm.trans first)
    cases free with
    | nil => cases next.symm.trans onward
    | cons s back =>
        obtain rfl := PageNode.page.inj (next.symm.trans onward)
        rw [@next_first pg s [p] back ring]
        exact second s back rfl

end Physical

section Lists

variable [Aliases] [PageState.Keeper]

/-- A page of the queue is written to disk and given back. -/
theorem evict_slot {p : Nat} {free front back : List Nat}
    (queues : PageState.Keeper.InOrder pg.count { area := pg.area, blocks } free (front ++ p :: back))
    (slot : pg.lookupPte pg.pde (pg.va (pg.base + p)) = some (frame, i)) :
    ∃ area listed, pg.evict (pg.base + p) = .ok { pg.writeOut (pg.base + p) frame i with area } ∧
      PageState.Keeper.InOrder pg.count { area, blocks } listed (front ++ back) ∧
      (∀ q, q ∈ listed ↔ free ≠ [] ∧ (q ∈ free ∨ q = p)) ∧
      ∀ q, q ≠ p → Aliases.wild area q = Aliases.wild pg.area q := by
  have index : pg.base + p - pg.base = p := Nat.add_sub_cancel_left ..
  obtain ⟨area, listed, done, given, members⟩ := @PageState.Keeper.giveBack _ _ _ _ ⟨p, true⟩
    _ _ _ (PageState.Keeper.dequeue queues) List.mem_cons_self
  rw [List.erase_cons_head] at given
  have dequeued : (pg.writeOut (pg.base + p) frame i).area =
      { pg.area with nodes := listDelete pg.area.nodes (.page p) } := by
    rw [writeOut, node, index]
    rfl
  have freed : (pg.writeOut (pg.base + p) frame i).freePage (pg.base + p) 1 true =
      .ok { pg.writeOut (pg.base + p) frame i with area } := by
    rw [freePage_ok]
    show Aliases.freePage (pg.count + 1) (pg.writeOut (pg.base + p) frame i).area
      ⟨pg.base + p - pg.base, true⟩ 1 = some area
    rw [index, dequeued]
    exact done
  refine ⟨area, listed, ?_, given, ?_, ?_⟩
  · unfold Paging.evict
    rw [slot]
    exact freed
  · intro q
    rw [members, PageState.inBlock_one]
  · intro q different
    rw [Aliases.wild_free done (fun inside => different (PageState.inBlock_one.mp inside))]
    exact congrFun (@Aliases.wild_congr _ pg.area
      { pg.area with nodes := listDelete pg.area.nodes (.page p) } rfl) q

/-- An evicted page goes in front of the first page of the list only if that is the last. -/
theorem evict_first {p : Nat} {free front back : List Nat}
    (queues : PageState.Keeper.InOrder pg.count { area := pg.area, blocks } free (front ++ p :: back))
    (queued : pg.area.nodes.next .vmFifo ≠ .vmFifo) (done : pg.evict (pg.base + p) = .ok after) :
    after.FirstPhysical ↔ pg.StaysPhysical := by
  have index : pg.base + p - pg.base = p := Nat.add_sub_cancel_left ..
  unfold Paging.evict at done
  obtain ⟨⟨frame, i⟩, slot, freed⟩ := ok_of_bind done
  have rings := PageState.Keeper.rings queues
  have dequeued := PageState.Keeper.rings (PageState.Keeper.dequeue queues)
  have notFree : p ∉ free := rings.apart p (by simp)
  obtain ⟨area, listed, given, inserts⟩ := @Aliases.inserts _ (pg.count + 1) 1 _ ⟨p, true⟩ free
    dequeued.ring (Nat.lt_succ_of_le rings.length_le) (fun i small => by
      rw [Nat.lt_one_iff.mp small]
      exact notFree)
  have written : (pg.writeOut (pg.base + p) frame i).area =
      { pg.area with nodes := listDelete pg.area.nodes (.page p) } := by
    rw [writeOut, node, index]
    rfl
  have freed : (pg.writeOut (pg.base + p) frame i).freePage (pg.base + p) 1 true = .ok after := freed
  rw [freePage_ok (show Aliases.freePage (pg.count + 1) (pg.writeOut (pg.base + p) frame i).area
    ⟨pg.base + p - pg.base, true⟩ 1 = some area by rw [index, written]; exact given)] at freed
  cases freed
  have same : Aliases.wild { pg.area with nodes := listDelete pg.area.nodes (.page p) } =
      Aliases.wild pg.area := Aliases.wild_congr rfl
  cases free with
  | nil =>
      have none : listed = [] := List.eq_nil_iff_forall_not_mem.mpr fun q member =>
        ((inserts.members q).mp member).1 rfl
      subst none
      rw [staysPhysical_iff rings.ring]
      exact iff_of_true ((firstPhysical_iff inserts.ring).mpr fun _ _ empty => nomatch empty)
        fun _ _ empty => nomatch empty
  | cons q rest =>
      cases listed with
      | nil => cases (inserts.members q).mpr ⟨List.cons_ne_nil q rest, .inl List.mem_cons_self⟩
      | cons r others =>
          have word := Aliases.wild_first dequeued.ring (Nat.lt_succ_of_le rings.length_le) notFree
            given inserts.ring.next_head
          rw [same] at word
          rw [staysPhysical_iff rings.ring]
          refine (firstPhysical_iff inserts.ring).trans ?_
          constructor
          · rintro tame _ _ ⟨⟩
            have low := word.symm.trans (tame r others rfl)
            rw [Bool.or_eq_false_iff] at low
            refine ⟨low.1, fun last _ => ?_⟩
            subst last
            exact low.2
          · rintro stays _ _ ⟨⟩
            obtain ⟨low, last⟩ := stays q rest rfl
            refine word.trans ?_
            rw [low, Bool.false_or]
            cases rest with
            | nil => exact last rfl queued
            | cons _ _ => rfl

/-- The same for a page of the user. -/
theorem evict_eq {p : Nat} {free front back : List Nat}
    (queues : PageState.Keeper.InOrder pg.count { area := pg.area, blocks } free (front ++ p :: back))
    (placed : pg.va (pg.base + p) = pageSize * v) (user : UserPage v)
    (has : pg.HasTable (v / 2 ^ 10)) :
    ∃ area listed, pg.evict (pg.base + p) = .ok (pg.toDisk v (pg.base + p) area) ∧
      PageState.Keeper.InOrder pg.count { area, blocks } listed (front ++ back) ∧
      (∀ q, q ∈ listed ↔ free ≠ [] ∧ (q ∈ free ∨ q = p)) ∧
      ∀ q, q ≠ p → Aliases.wild area q = Aliases.wild pg.area q := by
  have lookup := lookupPte_of_table has (show pageSize * v / 2 ^ 12 = v by simp only [pageSize]; omega)
  have slot : pageSize * v / pageSize + 1 = v + 1 := by
    simp only [pageSize]
    omega
  have word : 2 ^ 8 * (v + 1) % 2 ^ 32 = slotWord v := Nat.mod_eq_of_lt (slotWord_lt user)
  rw [← placed] at lookup
  obtain ⟨area, listed, evicted, given, members⟩ := evict_slot queues lookup
  refine ⟨area, listed, ?_, given, members⟩
  rw [evicted, writeOut, placed, slot, word]
  rfl

namespace Sound

/-- Two pages of the same frame are the same page. -/
theorem page_unique (sound : pg.Sound blocks list) (userV : UserPage v) (userU : UserPage u)
    (presentV : Entry.Present (pg.pte v)) (presentU : Entry.Present (pg.pte u))
    (same : Entry.addr (pg.pte v) = Entry.addr (pg.pte u)) : v = u := by
  have place : ∀ v, UserPage v → Entry.Present (pg.pte v) →
      pg.va (Entry.addr (pg.pte v)) = pageSize * v := by
    intro v user present
    rcases sound.words v user with zero | swapped | ⟨-, -, placed⟩
    · rw [zero] at present
      exact absurd present Entry.not_present_zero
    · rw [swapped] at present
      exact absurd present slotWord_absent
    · exact placed
  have first := place v userV presentV
  rw [same, place u userU presentU] at first
  simp only [pageSize] at first
  omega

theorem resident (sound : pg.Sound blocks list) (user : UserPage v) (present : Entry.Present (pg.pte v)) :
    Entry.addr (pg.pte v) ∈ list ∧ pg.va (Entry.addr (pg.pte v)) = pageSize * v := by
  rcases sound.words v user with zero | swapped | ⟨-, member, placed⟩
  · rw [zero] at present
    exact absurd present Entry.not_present_zero
  · rw [swapped] at present
    exact absurd present slotWord_absent
  · exact ⟨member, placed⟩

/-- A fresh frame is not on the FIFO. -/
theorem fresh_not_listed (sound : pg.Sound blocks list) (fresh : pg.Fresh frame) : frame ∉ list := by
  intro member
  obtain ⟨v, user, -, present, same⟩ := sound.mapped frame member
  have has := hasTable_of_present present
  have index := user.table
  rw [pte_of_table has] at present same
  refine (fresh.2.2 (v / 2 ^ 10) ?_ has).2 index (v % 2 ^ 10) (Nat.mod_lt _ (by decide)) ⟨present, same⟩
  simp only [UserTable] at index
  omega

theorem nodup (sound : pg.Sound blocks list) : list.Nodup := by
  obtain ⟨free, fifo, rfl, queues⟩ := sound.queued
  have nodup := (List.nodup_cons.mp (PageState.Keeper.rings queues).queue.nodup).2.of_map
  exact nodup.map (fun _ _ => Nat.add_left_cancel)

theorem toDisk {rest : List Nat} {area : FreeArea} (sound : pg.Sound blocks (frame :: rest))
    (user : UserPage v) (present : Entry.Present (pg.pte v))
    (same : Entry.addr (pg.pte v) = frame) (queued : { pg with area }.Queued blocks rest) :
    (pg.toDisk v frame area).Sound blocks rest ∧ Moved pg (pg.toDisk v frame area) := by
  let after := pg.toDisk v frame area
  have pde : after.pde = pg.pde := rfl
  have memory : after.memory =
      (pg.setEntry (pg.table (v / 2 ^ 10)) (v % 2 ^ 10) (slotWord v)).memory := rfl
  have disk : after.disk = pg.disk.write (sector (v + 1)) (pageSize / Disk.sectSize)
      (pg.memory frame) := rfl
  have has := hasTable_of_present present
  have notDirectory := sound.layout.notDirectory _ user.table has
  have elsewhere : ∀ g, g ≠ pg.table (v / 2 ^ 10) → after.memory g = pg.memory g := by
    intro g different
    rw [memory]
    exact memory_setEntry_of_ne different
  have directory : after.memory pg.pde = pg.memory pg.pde := elsewhere _ notDirectory.symm
  have tables := fun i => @hasTable_congr pg after i pde directory
  have words : ∀ u, UserPage u → after.pte u = if u = v then slotWord v else pg.pte u := by
    intro u userU
    rw [← pte_setEntry sound.layout user userU has (slotWord_lt user)]
    exact pte_of_memory pde memory
  have kept : ∀ u, UserPage u → u ≠ v → after.pte u = pg.pte u := by
    intro u userU different
    rw [words u userU, if_neg different]
  have frames : ∀ u, UserPage u → Entry.Present (pg.pte u) → Entry.addr (pg.pte u) ≠
      pg.table (v / 2 ^ 10) := by
    intro u userU presentU equal
    exact (sound.plain _ (sound.resident userU presentU).1).2 _ user.table has equal.symm
  have first : frame ∉ rest := (List.nodup_cons.mp sound.nodup).1
  constructor
  · constructor
    · exact layout_congr sound.layout pde directory
    · exact queued
    · intro u userU
      by_cases here : u = v
      · rw [words u userU, if_pos here, here]
        exact .inr (.inl rfl)
      · rw [kept u userU here]
        rcases sound.words u userU with zero | swapped | ⟨presentU, member, placed⟩
        · exact .inl zero
        · exact .inr (.inl swapped)
        · have different : Entry.addr (pg.pte u) ≠ frame := by
            intro equal
            exact here (sound.page_unique userU user presentU present (equal.trans same.symm))
          have remaining := (List.mem_cons.mp member).resolve_left different
          exact .inr (.inr ⟨presentU, remaining, placed⟩)
    · intro g member
      obtain ⟨u, userU, placed, presentU, sameU⟩ := sound.mapped g (List.mem_cons_of_mem _ member)
      have here : u ≠ v := by
        rintro rfl
        exact first (by rwa [← same, sameU])
      exact ⟨u, userU, placed, by rwa [kept u userU here], by rwa [kept u userU here]⟩
    · intro g member
      rw [plain_congr pde directory]
      exact sound.plain g (List.mem_cons_of_mem _ member)
  · refine ⟨?_, fun i _ hasI => (tables i).1.mp hasI⟩
    constructor
    · rfl
    · exact pde
    · rfl
    · intro i _ hasI
      exact ⟨(tables i).1.mpr hasI, (tables i).2⟩
    · intro u userU absent
      apply kept u userU
      rintro rfl
      exact absent present
    · intro addr userA
      have inside : addr % pageSize < pageSize / Disk.sectSize * Disk.sectSize :=
        Nat.mod_lt _ (by decide)
      by_cases here : addr / pageSize = v
      · have swapped : after.pte (addr / pageSize) = slotWord (addr / pageSize) := by
          rw [words _ userA, if_pos here, here]
        rw [contents_swapped swapped, contents_resident (by rwa [here]), disk, here, same,
          Disk.read_write_self inside]
      · apply contents_congr (kept _ userA here)
        · intro presentA
          rw [elsewhere _ (frames _ userA presentA)]
        · intro _ _
          rw [disk]
          apply Disk.read_write_of_apart _ inside
          rw [sector_eq user, sector_eq userA]
          have eight : pageSize / Disk.sectSize = 8 := rfl
          generalize addr / pageSize = u at here
          omega

/-- The first page of the queue is written to disk and given back. -/
theorem evict {rest : List Nat} (sound : pg.Sound blocks (frame :: rest)) :
    ∃ after, pg.evict frame = .ok after ∧ after.Sound blocks rest ∧ Moved pg after ∧
      (after.FirstPhysical ↔ pg.StaysPhysical) ∧
      ∀ q, pg.base + q ≠ frame → Aliases.wild after.area q = Aliases.wild pg.area q := by
  obtain ⟨v, user, placed, present, same⟩ := sound.mapped frame (by simp)
  obtain ⟨free, fifo, names, queues⟩ := sound.queued
  cases fifo with
  | nil => simp at names
  | cons p fifo =>
      obtain ⟨rfl, rfl⟩ := List.cons.inj names
      obtain ⟨area, listed, done, given, -, wild⟩ := @evict_eq _ _ _ _ _ _ free [] fifo queues placed
        user (hasTable_of_present present)
      have queued : { pg with area }.Queued blocks (fifo.map (pg.base + ·)) :=
        ⟨listed, fifo, rfl, given⟩
      obtain ⟨soundAfter, moved⟩ := sound.toDisk user present same queued
      have queued : pg.area.nodes.next .vmFifo ≠ .vmFifo := by
        rw [(PageState.Keeper.rings queues).queue.next_head]
        exact PageNode.noConfusion
      exact ⟨_, done, soundAfter, moved, @evict_first _ _ _ _ _ _ _ [] fifo queues queued done,
        fun q different => wild q fun here => different (by rw [here])⟩

/-- `swap_out(mm, 1)` -/
theorem swapOut (sound : pg.Sound blocks list) :
    ∃ after remaining, pg.swapOut 1 = .ok after ∧ after.Sound blocks remaining ∧ Moved pg after ∧
      (after.FirstPhysical ↔ pg.StaysPhysical) ∧
      ∀ q, pg.base + q ∉ list → Aliases.wild after.area q = Aliases.wild pg.area q := by
  obtain ⟨free, fifo, rfl, queues⟩ := sound.queued
  have next := (PageState.Keeper.rings queues).queue.next_head
  cases fifo with
  | nil =>
      have empty : pg.area.nodes.next .vmFifo = .vmFifo := next
      have ended : Paging.swapOutRound (.vmFifo, 1, pg) = .inr (.ok pg) := by
        simp only [swapOutRound, empty]
      refine ⟨pg, [], ?_, sound, .refl pg, ⟨fun first q head => ⟨first q head, fun _ queued =>
        absurd empty queued⟩, fun stays q head => (stays q head).1⟩, fun _ _ => rfl⟩
      rw [Paging.swapOut, loop_exit ended]
      rfl
  | cons p fifo =>
      have first : pg.area.nodes.next .vmFifo = .page p := next
      obtain ⟨after, evicted, soundAfter, moved, stays, wild⟩ := sound.evict
      have round : Paging.swapOutRound (.vmFifo, 1, pg) =
          .inl (after.area.nodes.next .vmFifo, 0, after) := by
        simp only [swapOutRound, first, evicted, attempt]
      have ended : Paging.swapOutRound (after.area.nodes.next .vmFifo, 0, after) =
          .inr (.ok after) := by
        cases node : after.area.nodes.next (after.area.nodes.next .vmFifo) <;>
          simp only [swapOutRound, node]
      refine ⟨after, _, ?_, soundAfter, moved, stays,
        fun q apart => wild q (ne_of_mem_of_not_mem List.mem_cons_self apart).symm⟩
      rw [Paging.swapOut, loop_next round, loop_exit ended]
      rfl

/-- What the allocator does to its list is of no interest to the pages. -/
theorem withArea {more : List (Nat × Nat)} {area : FreeArea} (sound : pg.Sound blocks list)
    (queued : { pg with area }.Queued more list) :
    { pg with area }.Sound more list ∧ Moved pg { pg with area } := by
  constructor
  · exact ⟨layout_congr sound.layout rfl rfl, queued, sound.words, sound.mapped, sound.plain⟩
  · exact ⟨⟨rfl, rfl, rfl, fun _ _ has => ⟨has, rfl⟩, fun _ _ _ => rfl, fun _ _ => rfl⟩,
      fun _ _ has => has⟩

/-- `alloc_page(1)` keeps what the pages hold, and takes the first page of the list. -/
theorem allocPage (sound : pg.Sound blocks list) :
    (∃ after, pg.allocPage 1 = .ok (none, after)) ∨
      ∃ p after remaining, pg.allocPage 1 = .ok (some (after.base + p), after) ∧
        after.Sound ((p, 1) :: blocks) remaining ∧ Moved pg after ∧
        (Aliases.wild after.area p = false ↔ pg.FirstPhysical) ∧
        (after.FirstPhysical ↔ pg.SecondPhysical) := by
  obtain ⟨free, fifo, rfl, queues⟩ := sound.queued
  rcases PageState.Keeper.alloc queues Nat.one_pos PageState.Keeper.takes_one with refused |
      ⟨p, rest, area, whole, served, allocated⟩
  · exact .inl ⟨_, allocPage_refused refused⟩
  · have queued : { pg with area }.Queued ((p, 1) :: blocks) (fifo.map (pg.base + ·)) :=
      ⟨rest, fifo, rfl, allocated⟩
    obtain ⟨soundArea, keptArea⟩ := sound.withArea queued
    have before := PageState.Keeper.rings queues
    have taken := PageState.Keeper.rings allocated
    have ring : pg.area.nodes.IsRing .head ((p :: rest).map .page) := by
      rw [← List.singleton_append]
      exact whole ▸ before.ring
    have same : Aliases.wild area = Aliases.wild pg.area :=
      Aliases.wild_congr (FreeArea.allocPage_raised served)
    have first : Aliases.wild area p = false ↔ pg.FirstPhysical := by
      rw [same, firstPhysical_iff ring]
      exact ⟨fun tame _ _ first => (List.cons.inj first).1 ▸ tame, fun tame => tame p rest rfl⟩
    have queue : area.nodes.next .vmFifo = pg.area.nodes.next .vmFifo :=
      taken.queue.next_head.trans before.queue.next_head.symm
    right
    by_cases evicts : pg.isVmmInited ∧ 1 = 1
    · obtain ⟨after, remaining, swapped, soundAfter, kept, stays, wild⟩ := soundArea.swapOut
      have apart : pg.base + p ∉ fifo.map (pg.base + ·) := by
        intro member
        obtain ⟨q, inFifo, same⟩ := List.mem_map.mp member
        obtain rfl : q = p := Nat.add_left_cancel same
        exact (PageState.Keeper.rings allocated).unheld q inFifo (q, 1) List.mem_cons_self
          (PageState.inBlock_one.mpr rfl)
      refine ⟨p, after, remaining, ?_, soundAfter, keptArea.trans kept, ?_, ?_⟩
      · rw [allocPage_served served, if_pos evicts, swapped]
        rfl
      · rw [wild p apart]
        exact first
      · rw [stays, secondPhysical_iff ring, @staysPhysical_iff { pg with area } _ _ taken.ring]
        simp only [same, queue, evicts.1, forall_const]
    · refine ⟨p, _, _, ?_, soundArea, keptArea, first, ?_⟩
      · rw [allocPage_served served, if_neg evicts]
        rfl
      · have off : ¬ pg.isVmmInited = true := fun inited => evicts ⟨inited, rfl⟩
        rw [secondPhysical_iff ring, @firstPhysical_iff { pg with area } _ _ taken.ring]
        simp only [same, off, Bool.false_eq_true, false_implies, implies_true, and_true]

theorem allocFresh (sound : pg.Sound blocks list) :
    pg.allocFresh = .error .allocator ∨
      ∃ p after remaining, pg.allocFresh = .ok (some (after.base + p), after) ∧
        after.Fresh (after.base + p) ∧ after.Sound ((p, 1) :: blocks) remaining ∧ Moved pg after ∧
        (Aliases.wild after.area p = false ↔ pg.FirstPhysical) ∧
        (after.FirstPhysical ↔ pg.SecondPhysical) := by
  unfold Paging.allocFresh
  rcases sound.allocPage with ⟨after, refused⟩ |
      ⟨p, after, remaining, allocated, soundAfter, kept, physical⟩
  · rw [refused]
    exact .inl rfl
  · rw [allocated]
    by_cases fresh : after.Fresh (after.base + p)
    · exact .inr ⟨p, after, remaining, if_pos fresh, fresh, soundAfter, kept, physical⟩
    · exact .inl (if_neg fresh)

/-- A page that was handed out need not be kept in view. -/
theorem forget {block : Nat × Nat} (sound : pg.Sound (block :: blocks) list) :
    pg.Sound blocks list := by
  obtain ⟨free, fifo, names, queues⟩ := sound.queued
  exact ⟨sound.layout, ⟨free, fifo, names, PageState.Keeper.forget queues
    (List.sublist_cons_self block blocks)⟩,
    sound.words, sound.mapped, sound.plain⟩

end Sound

end Lists

end Paging

end WindOs.Mm
