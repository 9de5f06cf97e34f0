import WindOs.Mm.Swap

namespace WindOs.Mm

open Data

/-! # A page fault

`get_pte` may make a table, `map` fills an entry, and the new page goes to the end
of the FIFO.  The page that was asked for is resident afterwards, and no byte that
was there before is lost.
-/

namespace Paging

variable {pg after : Paging} {blocks : List (Nat × Nat)} {list : List Nat}
  {frame i v u w addr sign : Nat}

/-- Every page that a fault at page `v` takes, for a table and for itself, is linked by its
physical pointer. -/
def TakesPhysical [Aliases] (pg : Paging) (v : Nat) : Prop :=
  pg.FirstPhysical ∧ (¬ pg.HasTable (v / 2 ^ 10) → pg.SecondPhysical)

/-- Every byte that was there is there, and is the same. -/
def Held (pg after : Paging) : Prop :=
  ∀ addr, UserPage (addr / pageSize) → ∀ byte, pg.contents addr = some byte →
    after.contents addr = some byte

theorem Kept.held (kept : Kept pg after) : Held pg after := by
  intro addr user byte before
  rw [kept.contents addr user]
  exact before

theorem Held.trans {middle : Paging} (first : Held pg middle) (second : Held middle after) :
    Held pg after :=
  fun addr user byte before => second addr user byte (first addr user byte before)

theorem page_of_la : pageSize * v / 2 ^ 12 = v := by
  simp only [pageSize]
  omega

theorem newTable_entry (different : frame ≠ pg.pde) (small : frame < 2 ^ 20) :
    (pg.newTable pg.pde i frame).HasTable i ∧ (pg.newTable pg.pde i frame).table i = frame := by
  have self : (pg.newTable pg.pde i frame).entry pg.pde i = Entry.setAddr (Entry.setSign
      (Entry.setOs (pg.entry pg.pde i) 0) 7) frame := by
    rw [newTable, entry_setEntry_self Entry.set_lt]
    simp only [entry, Function.update_of_ne different.symm]
  constructor
  · show Entry.Present ((pg.newTable pg.pde i frame).entry pg.pde i)
    rw [self]
    exact Entry.present_set (by decide)
  · show Entry.addr ((pg.newTable pg.pde i frame).entry pg.pde i) = frame
    rw [self, Entry.addr_set small]

theorem newTable_other {j : Nat} (different : frame ≠ pg.pde) (elsewhere : j ≠ i) :
    ((pg.newTable pg.pde i frame).HasTable j ↔ pg.HasTable j) ∧
      (pg.newTable pg.pde i frame).table j = pg.table j := by
  have same : (pg.newTable pg.pde i frame).entry pg.pde j = pg.entry pg.pde j := by
    rw [newTable, entry_setEntry_of_index elsewhere]
    simp only [entry, Function.update_of_ne different.symm]
  constructor
  · show Entry.Present ((pg.newTable pg.pde i frame).entry pg.pde j) ↔ _
    rw [same]
    rfl
  · show Entry.addr ((pg.newTable pg.pde i frame).entry pg.pde j) = _
    rw [same]
    rfl

theorem newTable_memory {g : Nat} (notFrame : g ≠ frame) (notDirectory : g ≠ pg.pde) :
    (pg.newTable pg.pde i frame).memory g = pg.memory g := by
  rw [newTable, memory_setEntry_of_ne notDirectory]
  exact Function.update_of_ne notFrame _ _

theorem newTable_zero {j : Nat} (different : frame ≠ pg.pde) :
    (pg.newTable pg.pde i frame).entry frame j = 0 := by
  rw [newTable, entry_setEntry_of_frame different]
  simp only [entry, Function.update_self]
  exact Bytes.word_zero

/-- A new table changes no entry: the entries it brings are 0, as the missing ones were. -/
theorem newTable_pte (layout : pg.Layout) (fresh : pg.Fresh frame) (user : UserPage u)
    (missing : ¬ pg.HasTable i) :
    (pg.newTable pg.pde i frame).pte u = pg.pte u := by
  have plain := fresh.plain
  by_cases here : u / 2 ^ 10 = i
  · have entry := @newTable_entry pg frame i plain.1 fresh.1
    rw [pte_of_table (by rw [here]; exact entry.1), here, entry.2, newTable_zero plain.1, pte, here,
      if_neg missing]
  · have other := @newTable_other pg frame i (u / 2 ^ 10) plain.1 here
    by_cases has : pg.HasTable (u / 2 ^ 10)
    · rw [pte_of_table (other.1.mpr has), other.2, pte_of_table has, Paging.entry,
        newTable_memory (plain.2 _ user.table has) (layout.notDirectory _ user.table has),
        Paging.entry]
    · rw [pte, pte, if_neg has, if_neg (fun inside => has (other.1.mp inside))]

theorem derefPage_eq [Aliases] {p : Nat} :
    pg.derefPage (pg.base + p) =
      if Aliases.wild pg.area p then .error (.wildPage (pg.base + p)) else .ok () := by
  rw [derefPage, Nat.add_sub_cancel_left]

theorem Sound.newTable [Aliases] [PageState.Keeper] (sound : pg.Sound blocks list) (fresh : pg.Fresh frame)
    (missing : ¬ pg.HasTable i) :
    (pg.newTable pg.pde i frame).Sound blocks list ∧ Kept pg (pg.newTable pg.pde i frame) := by
  have plain := fresh.plain
  have unlisted := sound.fresh_not_listed fresh
  have self := @newTable_entry pg frame i plain.1 fresh.1
  have others := fun j elsewhere => @newTable_other pg frame i j plain.1 elsewhere
  have words : ∀ u, UserPage u → (pg.newTable pg.pde i frame).pte u = pg.pte u :=
    fun u userU => newTable_pte sound.layout fresh userU missing
  have memory : ∀ g ∈ list, (pg.newTable pg.pde i frame).memory g = pg.memory g := by
    intro g member
    exact newTable_memory (ne_of_mem_of_not_mem member unlisted) (sound.plain g member).1
  constructor
  · constructor
    · constructor
      · intro j userJ has
        by_cases here : j = i
        · rw [here, self.2]
          exact plain.1
        · rw [(others j here).2]
          exact sound.layout.notDirectory j userJ ((others j here).1.mp has)
      · intro j k userJ userK hasJ hasK equal
        by_cases hereJ : j = i
        · by_cases hereK : k = i
          · rw [hereJ, hereK]
          · rw [hereJ, self.2, (others k hereK).2] at equal
            exact absurd equal.symm (plain.2 k userK ((others k hereK).1.mp hasK))
        · by_cases hereK : k = i
          · rw [hereK, self.2, (others j hereJ).2] at equal
            exact absurd equal (plain.2 j userJ ((others j hereJ).1.mp hasJ))
          · rw [(others j hereJ).2, (others k hereK).2] at equal
            exact sound.layout.injective j k userJ userK ((others j hereJ).1.mp hasJ)
              ((others k hereK).1.mp hasK) equal
    · exact sound.queued
    · intro u userU
      rw [words u userU]
      exact sound.words u userU
    · intro g member
      obtain ⟨u, userU, placed, present, same⟩ := sound.mapped g member
      exact ⟨u, userU, placed, by rwa [words u userU], by rwa [words u userU]⟩
    · intro g member
      refine ⟨(sound.plain g member).1, ?_⟩
      intro j userJ has
      by_cases here : j = i
      · rw [here, self.2]
        exact (ne_of_mem_of_not_mem member unlisted).symm
      · rw [(others j here).2]
        exact (sound.plain g member).2 j userJ ((others j here).1.mp has)
  · constructor
    · rfl
    · rfl
    · rfl
    · intro j _ has
      by_cases here : j = i
      · rw [here] at has
        exact absurd has missing
      · exact ⟨(others j here).1.mpr has, (others j here).2⟩
    · intro u userU _
      exact words u userU
    · intro addr userA
      apply contents_congr (words _ userA)
      · intro present
        rw [memory _ (sound.resident userA present).1]
      · intro _ _
        rfl

theorem getPte_of_table [Aliases] {alloc : Paging → Except Halt (Option Nat × Paging)} {la : Nat}
    (has : pg.HasTable (v / 2 ^ 10)) (here : la / 2 ^ 12 = v) :
    pg.getPte alloc pg.pde la = .ok (some (pg.table (v / 2 ^ 10), v % 2 ^ 10), pg) := by
  have index : la / 2 ^ 22 = v / 2 ^ 10 := by omega
  have present : Entry.Present (pg.entry pg.pde (la / 2 ^ 22)) := by
    rw [index]
    exact has
  unfold Paging.getPte
  rw [if_pos present, lookupPte_of_table has here]

/-- `get_pte(mm->pde, la, 1)` for a user page. -/
theorem Sound.getPte [Aliases] [PageState.Keeper] (sound : pg.Sound blocks list) (user : UserPage v) :
    pg.getPte Paging.allocFresh pg.pde (pageSize * v) = .error .allocator ∨
      (¬ pg.TakesPhysical v ∧ ∃ page,
        pg.getPte Paging.allocFresh pg.pde (pageSize * v) = .error (.wildPage page)) ∨
      ∃ after remaining, pg.getPte Paging.allocFresh pg.pde (pageSize * v) =
          .ok (some (after.table (v / 2 ^ 10), v % 2 ^ 10), after) ∧
        after.Sound blocks remaining ∧ Kept pg after ∧ after.HasTable (v / 2 ^ 10) ∧
        (after.FirstPhysical ↔ pg.TakesPhysical v) := by
  have index : pageSize * v / 2 ^ 22 = v / 2 ^ 10 := by
    simp only [pageSize]
    omega
  by_cases has : pg.HasTable (v / 2 ^ 10)
  · rw [getPte_of_table has page_of_la]
    exact .inr (.inr ⟨pg, list, rfl, sound, .refl pg, has,
      fun first => ⟨first, fun missing => absurd has missing⟩, fun takes => takes.1⟩)
  · have absent : ¬ Entry.Present (pg.entry pg.pde (pageSize * v / 2 ^ 22)) := by
      rw [index]
      exact has
    rcases sound.allocFresh with failed |
        ⟨p, middle, remaining, allocated, fresh, soundMiddle, moved, physical, second⟩
    · unfold Paging.getPte
      rw [if_neg absent, failed]
      exact .inl rfl
    · have taken : pg.getPte Paging.allocFresh pg.pde (pageSize * v) =
          middle.derefPage (middle.base + p) >>= fun _ => .ok (some
            ((middle.newTable middle.pde (v / 2 ^ 10) (middle.base + p)).table (v / 2 ^ 10), v % 2 ^ 10),
            middle.newTable middle.pde (v / 2 ^ 10) (middle.base + p)) := by
        unfold Paging.getPte
        rw [if_neg absent, allocated, index, page_of_la, ← moved.pde]
        rfl
      rw [taken, derefPage_eq]
      refine .inr ?_
      by_cases tame : Aliases.wild middle.area p = false
      · have missing : ¬ middle.HasTable (v / 2 ^ 10) :=
          fun inside => has (moved.noTable _ user.table inside)
        obtain ⟨soundAfter, kept⟩ := soundMiddle.forget.newTable fresh missing
        refine .inr ⟨_, remaining, by rw [tame]; rfl, soundAfter, moved.toKept.trans kept,
          (newTable_entry fresh.2.1 fresh.1).1, ?_, ?_⟩
        · intro first
          exact ⟨physical.mp tame, fun _ => second.mp first⟩
        · intro takes
          exact second.mpr (takes.2 has)
      · refine .inl ⟨fun takes => tame (physical.mpr takes.1), middle.base + p, ?_⟩
        rw [Bool.eq_true_of_not_eq_false tame]
        rfl

/-- Map a page at an entry that is not present. -/
theorem map_absent [Aliases] {alloc : Paging → Except Halt (Option Nat × Paging)} {page la : Nat}
    (has : pg.HasTable (v / 2 ^ 10)) (here : la / 2 ^ 12 = v) (absent : ¬ Entry.Present (pg.pte v)) :
    pg.map alloc pg.pde la page sign =
      .ok (({ pg with ref := Function.update pg.ref page (pg.ref page + 1) }.setEntry
        (pg.table (v / 2 ^ 10)) (v % 2 ^ 10)
        (Entry.setAddr (Entry.setSign (pg.pte v) sign) page)).invlpg la) := by
  rw [pte_of_table has] at absent ⊢
  let counted := { pg with ref := Function.update pg.ref page (pg.ref page + 1) }
  have empty : ¬ Entry.Present (counted.entry (pg.table (v / 2 ^ 10)) (v % 2 ^ 10)) := absent
  have replaced : counted.replace pg.pde (pg.table (v / 2 ^ 10)) (v % 2 ^ 10) page = .ok counted := by
    unfold replace
    rw [if_neg empty]
  have written : (counted.setEntry (pg.table (v / 2 ^ 10)) (v % 2 ^ 10) (Entry.setSign
      (counted.entry (pg.table (v / 2 ^ 10)) (v % 2 ^ 10)) sign)).entry
        (pg.table (v / 2 ^ 10)) (v % 2 ^ 10) = Entry.setSign
          (counted.entry (pg.table (v / 2 ^ 10)) (v % 2 ^ 10)) sign :=
    entry_setEntry_self (Entry.setSign_lt entry_lt)
  unfold Paging.map
  rw [getPte_of_table has here]
  show (counted.replace pg.pde (pg.table (v / 2 ^ 10)) (v % 2 ^ 10) page >>= fun pg' => _) = _
  rw [replaced]
  show Except.ok _ = Except.ok _
  rw [written, setEntry_setEntry]
  rfl

/-- Page `v` resident in `frame`, with the bytes that were put there. -/
def installed (pg : Paging) (v frame sign : Nat) (bytes : Bytes) (ref : Nat → Int) : Paging :=
  { { pg with memory := Function.update pg.memory frame bytes }.setEntry
      (pg.table (v / 2 ^ 10)) (v % 2 ^ 10) (Entry.setAddr (Entry.setSign (pg.pte v) sign) frame) with
    ref := ref
    va := Function.update pg.va frame (pageSize * v)
    tlb := Function.update pg.tlb (pageSize * v / pageSize) none
    area := { pg.area with
      nodes := listInsertBefore pg.area.nodes .vmFifo (.page (frame - pg.base)) } }

/-- A page read into a plain frame changes neither the tables nor their entries. -/
theorem loaded_same {bytes : Bytes} (plain : pg.Plain frame) (user : UserPage u) :
    let loaded : Paging := { pg with memory := Function.update pg.memory frame bytes }
    ((loaded.HasTable i ↔ pg.HasTable i) ∧ loaded.table i = pg.table i) ∧ loaded.pte u = pg.pte u := by
  intro loaded
  have memory : ∀ g, ¬ pg.Plain g → loaded.memory g = pg.memory g := by
    intro g notPlain
    have different : g ≠ frame := by
      rintro rfl
      exact notPlain plain
    exact Function.update_of_ne different _ _
  exact ⟨@hasTable_congr pg loaded i rfl (memory _ (fun here => here.1 rfl)),
    @pte_congr pg loaded u rfl user memory⟩

theorem installed_pte {bytes : Bytes} {ref : Nat → Int} (layout : pg.Layout) (plain : pg.Plain frame)
    (userV : UserPage v) (userU : UserPage u) (has : pg.HasTable (v / 2 ^ 10)) :
    (pg.installed v frame sign bytes ref).pte u =
      if u = v then Entry.setAddr (Entry.setSign (pg.pte v) sign) frame else pg.pte u := by
  let loaded := { pg with memory := Function.update pg.memory frame bytes }
  have directory : loaded.memory pg.pde = pg.memory pg.pde :=
    Function.update_of_ne plain.1.symm _ _
  obtain ⟨tables, same⟩ := @loaded_same pg frame (v / 2 ^ 10) u bytes plain userU
  rw [← same, ← pte_setEntry (@layout_congr pg loaded layout rfl directory) userV userU
    (tables.1.mpr has) Entry.set_lt, tables.2]
  exact pte_of_memory rfl rfl

theorem installed_memory {bytes : Bytes} {ref : Nat → Int} {g : Nat} (notFrame : g ≠ frame)
    (notTable : g ≠ pg.table (v / 2 ^ 10)) :
    (pg.installed v frame sign bytes ref).memory g = pg.memory g := by
  have loaded := @memory_setEntry_of_ne
    { pg with memory := Function.update pg.memory frame bytes } (pg.table (v / 2 ^ 10)) (v % 2 ^ 10)
    (Entry.setAddr (Entry.setSign (pg.pte v) sign) frame) g notTable
  exact loaded.trans (Function.update_of_ne notFrame _ _)

theorem installed_bytes {bytes : Bytes} {ref : Nat → Int} (notTable : frame ≠ pg.table (v / 2 ^ 10)) :
    (pg.installed v frame sign bytes ref).memory frame = bytes := by
  have loaded := @memory_setEntry_of_ne
    { pg with memory := Function.update pg.memory frame bytes } (pg.table (v / 2 ^ 10)) (v % 2 ^ 10)
    (Entry.setAddr (Entry.setSign (pg.pte v) sign) frame) frame notTable
  exact loaded.trans (Function.update_self _ _ _)

theorem Sound.installed [Aliases] [PageState.Keeper] {bytes : Bytes} {ref : Nat → Int} {p : Nat}
    (sound : pg.Sound ((p, 1) :: blocks) list) (place : frame = pg.base + p)
    (fresh : pg.Fresh frame) (user : UserPage v) (has : pg.HasTable (v / 2 ^ 10))
    (absent : ¬ Entry.Present (pg.pte v)) (odd : sign % 2 = 1)
    (same : ∀ addr, addr / pageSize = v → ∀ byte, pg.contents addr = some byte →
      bytes (addr % pageSize) = byte) :
    (pg.installed v frame sign bytes ref).Sound blocks (list ++ [frame]) ∧
      Held pg (pg.installed v frame sign bytes ref) ∧
      Entry.Present ((pg.installed v frame sign bytes ref).pte v) := by
  let after := pg.installed v frame sign bytes ref
  have plain := fresh.plain
  have unlisted := sound.fresh_not_listed fresh
  have table := plain.2 _ user.table has
  have word : after.pte v = Entry.setAddr (Entry.setSign (pg.pte v) sign) frame := by
    rw [installed_pte sound.layout plain user user has, if_pos rfl]
  have words : ∀ u, UserPage u → u ≠ v → after.pte u = pg.pte u := by
    intro u userU different
    rw [installed_pte sound.layout plain user userU has, if_neg different]
  have present : Entry.Present (after.pte v) := by
    rw [word]
    exact Entry.present_set odd
  have address : Entry.addr (after.pte v) = frame := by
    rw [word, Entry.addr_set fresh.1]
  have directory : after.memory pg.pde = pg.memory pg.pde :=
    installed_memory plain.1.symm (sound.layout.notDirectory _ user.table has).symm
  have kept : ∀ g ∈ list, after.memory g = pg.memory g := by
    intro g member
    exact installed_memory (ne_of_mem_of_not_mem member unlisted)
      ((sound.plain g member).2 _ user.table has).symm
  have places : ∀ g ∈ list, after.va g = pg.va g := by
    intro g member
    exact Function.update_of_ne (ne_of_mem_of_not_mem member unlisted) _ _
  refine ⟨⟨@layout_congr pg after sound.layout rfl directory, ?_, ?_, ?_, ?_⟩, ?_, present⟩
  · obtain ⟨free, fifo, rfl, queues⟩ := sound.queued
    have index : frame - pg.base = p := by omega
    refine ⟨free, fifo ++ [p], by simp [place, Paging.installed, setEntry], ?_⟩
    have queued := PageState.Keeper.enqueue queues
    rw [← index] at queued ⊢
    exact queued
  · intro u userU
    by_cases here : u = v
    · subst here
      refine .inr (.inr ⟨present, ?_, ?_⟩)
      · rw [address]
        simp
      · rw [address]
        exact Function.update_self _ _ _
    · rw [words u userU here]
      rcases sound.words u userU with zero | swapped | ⟨presentU, member, placed⟩
      · exact .inl zero
      · exact .inr (.inl swapped)
      · exact .inr (.inr ⟨presentU, List.mem_append_left _ member, by rw [places _ member, placed]⟩)
  · intro g member
    cases List.mem_append.mp member with
    | inl old =>
        obtain ⟨u, userU, placed, presentU, sameU⟩ := sound.mapped g old
        have here : u ≠ v := by
          rintro rfl
          exact absent presentU
        exact ⟨u, userU, by rw [places g old, placed], by rwa [words u userU here],
          by rwa [words u userU here]⟩
    | inr new =>
        rw [List.mem_singleton] at new
        subst new
        exact ⟨v, user, Function.update_self _ _ _, present, address⟩
  · intro g member
    rw [@plain_congr pg after g rfl directory]
    cases List.mem_append.mp member with
    | inl old => exact sound.plain g old
    | inr new =>
        rw [List.mem_singleton] at new
        rw [new]
        exact plain
  · intro addr userA byte before
    by_cases here : addr / pageSize = v
    · rw [contents_resident (by rw [here]; exact present), here, address,
        installed_bytes table.symm]
      exact congrArg some (same addr here byte before)
    · rw [← before]
      apply contents_congr (words _ userA here)
      · intro presentA
        rw [kept _ (sound.resident userA presentA).1]
      · intro _ _
        rfl

section Serving

variable [Aliases] [PageState.Keeper]

/-- What a part of the fault handler does: it halts for want of a page, or it halts at a raised
pointer, or page `v` is resident afterwards and nothing is lost. -/
def Serves (pg : Paging) (blocks : List (Nat × Nat)) (v : Nat) (physical : Prop)
    (result : Except Halt Paging) : Prop :=
  result = .error .allocator ∨ (¬ physical ∧ ∃ page, result = .error (.wildPage page)) ∨
    physical ∧ ∃ after remaining, result = .ok after ∧ after.Sound blocks remaining ∧ after.mm = pg.mm ∧
      after.pde = pg.pde ∧ Held pg after ∧ Entry.Present (after.pte v)

/-- The page that was allocated is installed, and nothing else has happened since. -/
theorem serves_installed {middle : Paging} {bytes : Bytes} {ref : Nat → Int} {p : Nat}
    {physical : Prop} (moved : Moved pg middle) (sound : middle.Sound ((p, 1) :: blocks) list)
    (tame : Aliases.wild middle.area p = false ↔ physical) (fresh : middle.Fresh (middle.base + p))
    (user : UserPage v) (has : pg.HasTable (v / 2 ^ 10)) (absent : ¬ Entry.Present (pg.pte v))
    (odd : sign % 2 = 1)
    (same : ∀ addr, addr / pageSize = v → ∀ byte, middle.contents addr = some byte →
      bytes (addr % pageSize) = byte) :
    Serves pg blocks v physical (middle.derefPage (middle.base + p) >>= fun _ =>
      .ok (middle.installed v (middle.base + p) sign bytes ref)) := by
  have word : middle.pte v = pg.pte v := moved.words v user absent
  have hasMiddle := (moved.tables _ user.table has).1
  obtain ⟨soundAfter, held, present⟩ := @Sound.installed _ _ _ _ _ _ _ _ bytes ref _ sound rfl fresh
    user hasMiddle (by rwa [word]) odd same
  rw [derefPage_eq]
  by_cases low : Aliases.wild middle.area p = false
  · rw [low]
    exact .inr (.inr ⟨tame.mp low, _, _, rfl, soundAfter, moved.mm, moved.pde,
      moved.held.trans held, present⟩)
  · rw [Bool.eq_true_of_not_eq_false low]
    exact .inr (.inl ⟨fun physical => low (tame.mpr physical), _, rfl⟩)

end Serving

section Alloc

variable [Aliases] {alloc : Paging → Except Halt (Option Nat × Paging)} {middle : Paging}

/-- The first touch of a page, in the frame that was allocated for it. -/
theorem touch_eq (allocated : alloc pg = .ok (some frame, middle))
    (has : middle.HasTable (v / 2 ^ 10)) (absent : ¬ Entry.Present (middle.pte v)) :
    pg.touch alloc (pageSize * v) sign = middle.derefPage frame >>= fun _ =>
      .ok (middle.installed v frame sign (middle.memory frame)
        (Function.update middle.ref frame (middle.ref frame + 1))) := by
  let placed := { middle with va := Function.update middle.va frame (pageSize * v) }
  have mapped := @map_absent placed v sign _ alloc frame _ has page_of_la absent
  unfold Paging.touch
  rw [allocated]
  show (middle.derefPage frame >>= fun _ =>
    placed.map alloc placed.pde (pageSize * v) frame sign >>= fun pg => .ok (pg.enqueue frame)) = _
  rw [mapped, installed, Function.update_eq_self]
  rfl

/-- A page comes back from disk into the frame that was allocated for it. -/
theorem swapIn_eq (has : pg.HasTable (v / 2 ^ 10))
    (allocated : alloc pg = .ok (some frame, middle)) (different : frame ≠ middle.pde)
    (kept : ∀ bytes, { middle with memory := Function.update middle.memory frame bytes }.pte v =
      middle.pte v)
    (tables : middle.HasTable (v / 2 ^ 10) ∧ middle.table (v / 2 ^ 10) = pg.table (v / 2 ^ 10))
    (absent : ¬ Entry.Present (middle.pte v)) :
    pg.swapIn alloc (pageSize * v) = middle.derefPage frame >>= fun _ =>
      .ok (middle.installed v frame 7
        (middle.disk.read (sector (middle.pte v / 2 ^ 8)) (pageSize / Disk.sectSize)
          (middle.memory frame))
        (Function.update middle.ref frame (middle.ref frame + 1))) := by
  let bytes := middle.disk.read (sector (middle.pte v / 2 ^ 8)) (pageSize / Disk.sectSize)
    (middle.memory frame)
  let loaded := { middle with memory := Function.update middle.memory frame bytes }
  have same := @hasTable_congr middle loaded (v / 2 ^ 10) rfl
    (Function.update_of_ne different.symm _ _)
  have word : loaded.pte v = middle.pte v := kept bytes
  have mapped := @map_absent loaded v 7 _ alloc frame _ (same.1.mpr tables.1) page_of_la
    (by rwa [word])
  unfold Paging.swapIn
  rw [lookupPte_of_table has page_of_la, allocated, ← tables.2]
  show (Paging.map alloc { middle with
      memory := Function.update middle.memory frame
        (middle.disk.read (sector (middle.entry (middle.table (v / 2 ^ 10)) (v % 2 ^ 10) / 2 ^ 8))
          (pageSize / Disk.sectSize) (middle.memory frame)) } middle.pde (pageSize * v) frame 7 >>= fun pg =>
    pg.derefPage frame >>= fun _ =>
      .ok ({ pg with va := Function.update pg.va frame (pageSize * v) }.enqueue frame)) = _
  rw [← pte_of_table tables.1, mapped, same.2, word]
  rfl

end Alloc

/-- The first touch of a page. -/
theorem Sound.touch [Aliases] [PageState.Keeper] (sound : pg.Sound blocks list) (user : UserPage v)
    (has : pg.HasTable (v / 2 ^ 10)) (zero : pg.pte v = 0) (odd : sign % 2 = 1) :
    Serves pg blocks v pg.FirstPhysical (pg.touch Paging.allocFresh (pageSize * v) sign) := by
  rcases sound.allocFresh with failed |
      ⟨p, middle, remaining, allocated, fresh, soundMiddle, moved, physical, -⟩
  · unfold Paging.touch
    rw [failed]
    exact .inl rfl
  · have absent : ¬ Entry.Present (pg.pte v) := by
      rw [zero]
      exact Entry.not_present_zero
    have word : middle.pte v = pg.pte v := moved.words v user absent
    rw [touch_eq allocated (moved.tables _ user.table has).1 (by rwa [word])]
    exact serves_installed moved soundMiddle physical fresh user has absent odd (by
      intro addr here byte before
      rw [contents_absent (by rw [here, word, zero])] at before
      contradiction)

/-- A page comes back from disk. -/
theorem Sound.swapIn [Aliases] [PageState.Keeper] (sound : pg.Sound blocks list) (user : UserPage v)
    (has : pg.HasTable (v / 2 ^ 10)) (swapped : pg.pte v = slotWord v) :
    Serves pg blocks v pg.FirstPhysical (pg.swapIn Paging.allocFresh (pageSize * v)) := by
  rcases sound.allocFresh with failed |
      ⟨p, middle, remaining, allocated, fresh, soundMiddle, moved, physical, -⟩
  · unfold Paging.swapIn
    rw [failed]
    exact .inl rfl
  · have absent : ¬ Entry.Present (pg.pte v) := by
      rw [swapped]
      exact slotWord_absent
    have word : middle.pte v = pg.pte v := moved.words v user absent
    have slot : middle.pte v / 2 ^ 8 = v + 1 := by
      rw [word, swapped, slotWord]
      omega
    have plain := fresh.plain
    rw [swapIn_eq has allocated plain.1 (fun _ => (@loaded_same middle _ 0 v _ plain user).2)
      (moved.tables _ user.table has) (by rwa [word]), slot]
    exact serves_installed moved soundMiddle physical fresh user has absent (by decide) (by
      intro addr here byte before
      have inside : addr % pageSize < pageSize / Disk.sectSize * Disk.sectSize :=
        Nat.mod_lt _ (by decide)
      rw [contents_swapped (by rw [here, word, swapped]), here] at before
      rw [← Option.some.inj before]
      simp only [Disk.read, if_pos inside])

theorem Sound.bindPage [Aliases] [PageState.Keeper] (sound : pg.Sound blocks list) (user : UserPage v)
    (absent : ¬ Entry.Present (pg.pte v)) (odd : sign % 2 = 1) :
    Serves pg blocks v (pg.TakesPhysical v) (pg.bindPage Paging.allocFresh (pageSize * v) sign) := by
  unfold Paging.bindPage
  rcases sound.getPte user with failed | ⟨wild, page, halted⟩ |
      ⟨middle, remaining, found, soundMiddle, kept, has, physical⟩
  · rw [failed]
    exact .inl rfl
  · rw [halted]
    exact .inr (.inl ⟨wild, page, rfl⟩)
  · rw [found]
    show Serves pg blocks v (pg.TakesPhysical v)
      (if Entry.addr (middle.entry (middle.table (v / 2 ^ 10)) (v % 2 ^ 10)) = 0 ∧
        Entry.sign (middle.entry (middle.table (v / 2 ^ 10)) (v % 2 ^ 10)) = 0 then
        middle.touch Paging.allocFresh (pageSize * v) sign
      else middle.swapIn Paging.allocFresh (pageSize * v))
    rw [← pte_of_table has, kept.words v user absent, ← physical]
    have onward : ∀ result, Serves middle blocks v middle.FirstPhysical result →
        Serves pg blocks v middle.FirstPhysical result := by
      rintro result (failed | halted | ⟨first, after, list, done, soundAfter, mm, pde, held, present⟩)
      · exact .inl failed
      · exact .inr (.inl halted)
      · exact .inr (.inr ⟨first, after, list, done, soundAfter, mm.trans kept.mm, pde.trans kept.pde,
          kept.held.trans held, present⟩)
    apply onward
    rcases sound.words v user with zero | swapped | ⟨present, -⟩
    · rw [if_pos (by rw [zero]; decide)]
      exact soundMiddle.touch user has (by rw [kept.words v user absent, zero]) odd
    · have named : ¬ (Entry.addr (pg.pte v) = 0 ∧ Entry.sign (pg.pte v) = 0) := by
        rw [swapped]
        have high := user.1
        simp only [Entry.addr, slotWord]
        omega
      rw [if_neg named]
      exact soundMiddle.swapIn user has (by rw [kept.words v user absent, swapped])
    · exact absurd present absent

end Paging

end WindOs.Mm
