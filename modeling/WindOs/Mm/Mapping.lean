import WindOs.Mm.Fault

namespace WindOs.Mm

open Data

/-! # The whole directory

Besides the user pages a directory maps the kernel: frame `f` of the pool is found at
page `0xC0000 + f`.  The kernel's tables may be shared, and the first 4 MB are
mapped twice, but a user table has one place in the directory.
-/

/-- The page at which the kernel finds a frame. -/
def directPage (frame : Nat) : Nat := 0xC0000 + frame

namespace Paging

variable {pg after : Paging} {frame i j p v u w la : Nat} {bytes : Bytes}

/-- The frame holds neither the directory nor a table. -/
def NotTable (pg : Paging) (frame : Nat) : Prop :=
  frame ≠ pg.pde ∧ ∀ i < 1024, pg.HasTable i → pg.table i ≠ frame

structure Mapping (pg : Paging) : Prop where
  notDirectory : ∀ i < 1024, pg.HasTable i → pg.table i ≠ pg.pde
  unshared : ∀ i j, UserTable i → j < 1024 → pg.HasTable i → pg.HasTable j →
    pg.table i = pg.table j → i = j
  pool : ∀ v, UserPage v → Entry.Present (pg.pte v) →
    ∃ p < pg.count, Entry.addr (pg.pte v) = pg.base + p
  direct : ∀ p < pg.count, Entry.Present (pg.pte (directPage (pg.base + p))) →
    Entry.addr (pg.pte (directPage (pg.base + p))) = pg.base + p
  room : pg.base + pg.count ≤ 2 ^ 18

/-- The directory is as it was. -/
structure SameTables (pg after : Paging) : Prop where
  pde : after.pde = pg.pde
  base : after.base = pg.base
  count : after.count = pg.count
  directory : after.memory pg.pde = pg.memory pg.pde

/-- Nor has a page become present. -/
structure Settled (pg after : Paging) : Prop extends SameTables pg after where
  absent : ∀ v, ¬ Entry.Present (pg.pte v) → ¬ Entry.Present (after.pte v)

theorem SameTables.tables (same : SameTables pg after) :
    (after.HasTable i ↔ pg.HasTable i) ∧ after.table i = pg.table i :=
  hasTable_congr same.pde same.directory

theorem SameTables.notTable (same : SameTables pg after) :
    after.NotTable frame ↔ pg.NotTable frame := by
  simp only [NotTable, same.pde, same.tables]

theorem SameTables.trans {middle : Paging} (first : SameTables pg middle)
    (second : SameTables middle after) : SameTables pg after where
  pde := second.pde.trans first.pde
  base := second.base.trans first.base
  count := second.count.trans first.count
  directory := by
    have again := second.directory
    rw [first.pde] at again
    exact again.trans first.directory

theorem Settled.refl (pg : Paging) : Settled pg pg :=
  ⟨⟨rfl, rfl, rfl, rfl⟩, fun _ absent => absent⟩

theorem Settled.trans {middle : Paging} (first : Settled pg middle) (second : Settled middle after) :
    Settled pg after :=
  ⟨first.toSameTables.trans second.toSameTables,
    fun v absent => second.absent v (first.absent v absent)⟩

theorem Settled.of_memory (pde : after.pde = pg.pde) (base : after.base = pg.base)
    (count : after.count = pg.count) (memory : after.memory = pg.memory) : Settled pg after where
  pde := pde
  base := base
  count := count
  directory := by rw [memory]
  absent v absent := by rwa [pte_of_memory pde memory]

/-- A new table holds no entries, and there were none in its place. -/
theorem NotTable.newTable_pte (notTable : pg.NotTable frame)
    (notDirectory : ∀ i < 1024, pg.HasTable i → pg.table i ≠ pg.pde) (narrow : frame < 2 ^ 20)
    (missing : ¬ pg.HasTable i) (small : u < 2 ^ 20) :
    (pg.newTable pg.pde i frame).pte u = pg.pte u := by
  have index : u / 2 ^ 10 < 1024 := by omega
  by_cases here : u / 2 ^ 10 = i
  · have entry := @newTable_entry pg frame i notTable.1 narrow
    rw [pte_of_table (by rw [here]; exact entry.1), here, entry.2, newTable_zero notTable.1, pte,
      here, if_neg missing]
  · have other := @newTable_other pg frame i (u / 2 ^ 10) notTable.1 here
    by_cases has : pg.HasTable (u / 2 ^ 10)
    · rw [pte_of_table (other.1.mpr has), other.2, pte_of_table has, Paging.entry,
        newTable_memory (notTable.2 _ index has) (notDirectory _ index has), Paging.entry]
    · rw [pte, pte, if_neg has, if_neg (fun inside => has (other.1.mp inside))]

theorem user_small (user : UserPage u) : u < 2 ^ 20 := by
  simp only [UserPage] at user
  omega

theorem user_of_direct (user : UserPage u) : u ≠ directPage frame := by
  simp only [UserPage] at user
  simp only [directPage]
  omega

namespace Mapping

theorem layout (mapping : pg.Mapping) : pg.Layout where
  notDirectory i user := mapping.notDirectory i (by simp only [UserTable] at user; omega)
  injective i j userI userJ := mapping.unshared i j userI (by simp only [UserTable] at userJ; omega)

/-- With the same tables, an entry is the same, or maps nothing, or is that of a user
page and maps a page of the pool. -/
theorem congr (mapping : pg.Mapping) (same : SameTables pg after)
    (entries : ∀ u < 2 ^ 20, Entry.Present (after.pte u) → after.pte u = pg.pte u ∨
      UserPage u ∧ ∃ p < pg.count, Entry.addr (after.pte u) = pg.base + p) :
    after.Mapping := by
  constructor
  · intro i small has
    rw [same.tables.2, same.pde]
    exact mapping.notDirectory i small (same.tables.1.mp has)
  · intro i j user small hasI hasJ equal
    rw [same.tables.2, same.tables.2] at equal
    exact mapping.unshared i j user small (same.tables.1.mp hasI) (same.tables.1.mp hasJ) equal
  · intro v user present
    rw [same.base, same.count]
    cases entries v (user_small user) present with
    | inl old =>
        rw [old] at present ⊢
        exact mapping.pool v user present
    | inr new => exact new.2
  · intro p small present
    rw [same.base] at present ⊢
    rw [same.count] at small
    have room := mapping.room
    have inside : directPage (pg.base + p) < 2 ^ 20 := by
      simp only [directPage]
      omega
    cases entries _ inside present with
    | inl old =>
        rw [old] at present ⊢
        exact mapping.direct p small present
    | inr new => exact absurd rfl (user_of_direct new.1)
  · rw [same.base, same.count]
    exact mapping.room

theorem of_memory (mapping : pg.Mapping) (pde : after.pde = pg.pde) (base : after.base = pg.base)
    (count : after.count = pg.count) (memory : after.memory = pg.memory) : after.Mapping :=
  mapping.congr ⟨pde, base, count, by rw [memory]⟩
    (fun _ _ _ => .inl (pte_of_memory pde memory))

/-- An entry is overwritten by a word that maps nothing. -/
theorem setAbsent (mapping : pg.Mapping) (different : frame ≠ pg.pde) (small : w < 2 ^ 32)
    (absent : ¬ Entry.Present w) :
    (pg.setEntry frame i w).Mapping ∧ Settled pg (pg.setEntry frame i w) := by
  have words : ∀ u, (pg.setEntry frame i w).pte u = w ∨
      (pg.setEntry frame i w).pte u = pg.pte u := by
    intro u
    rw [pte_setEntry_slot different small]
    split
    · exact .inl rfl
    · exact .inr rfl
  have directory : (pg.setEntry frame i w).memory pg.pde = pg.memory pg.pde :=
    memory_setEntry_of_ne different.symm
  refine ⟨mapping.congr ⟨rfl, rfl, rfl, directory⟩ ?_, ⟨rfl, rfl, rfl, directory⟩, ?_⟩
  · intro u _ present
    refine .inl ((words u).resolve_left ?_)
    intro same
    rw [same] at present
    exact absent present
  · intro u before
    cases words u with
    | inl new =>
        rw [new]
        exact absent
    | inr old =>
        rw [old]
        exact before

/-- A page is written that is no table. -/
theorem load_pte (notTable : pg.NotTable frame) (small : u < 2 ^ 20) :
    { pg with memory := Function.update pg.memory frame bytes }.pte u = pg.pte u := by
  have index : u / 2 ^ 10 < 1024 := by omega
  refine pte_eq_of_table rfl ?_ ?_
  · exact Function.update_of_ne notTable.1.symm _ _
  · intro has
    exact Function.update_of_ne (notTable.2 _ index has) _ _

theorem load (mapping : pg.Mapping) (notTable : pg.NotTable frame) :
    { pg with memory := Function.update pg.memory frame bytes }.Mapping :=
  mapping.congr ⟨rfl, rfl, rfl, Function.update_of_ne notTable.1.symm _ _⟩
    (fun _ small _ => .inl (load_pte notTable small))

theorem newTable_pte (mapping : pg.Mapping) (notTable : pg.NotTable frame) (narrow : frame < 2 ^ 20)
    (missing : ¬ pg.HasTable i) (small : u < 2 ^ 20) :
    (pg.newTable pg.pde i frame).pte u = pg.pte u :=
  notTable.newTable_pte mapping.notDirectory narrow missing small

theorem newTable_notTable {g : Nat} (notTable : pg.NotTable frame) (narrow : frame < 2 ^ 20)
    (missing : ¬ pg.HasTable i) (index : i < 1024) :
    (pg.newTable pg.pde i frame).NotTable g ↔ g ≠ frame ∧ pg.NotTable g := by
  have self := @newTable_entry pg frame i notTable.1 narrow
  have others := fun j elsewhere => @newTable_other pg frame i j notTable.1 elsewhere
  constructor
  · rintro ⟨notDirectory, tables⟩
    refine ⟨fun same => tables i index self.1 (self.2.trans same.symm), notDirectory, ?_⟩
    intro j small has
    have elsewhere : j ≠ i := fun same => missing (same ▸ has)
    rw [← (others j elsewhere).2]
    exact tables j small ((others j elsewhere).1.mpr has)
  · rintro ⟨different, before⟩
    refine ⟨before.1, ?_⟩
    intro j small has
    by_cases here : j = i
    · rw [here, self.2]
      exact different.symm
    · rw [(others j here).2]
      exact before.2 j small ((others j here).1.mp has)

theorem newTable (mapping : pg.Mapping) (notTable : pg.NotTable frame) (narrow : frame < 2 ^ 20)
    (missing : ¬ pg.HasTable i) : (pg.newTable pg.pde i frame).Mapping := by
  have self := @newTable_entry pg frame i notTable.1 narrow
  have others := fun j elsewhere => @newTable_other pg frame i j notTable.1 elsewhere
  have words := fun u small => @newTable_pte pg frame i u mapping notTable narrow missing small
  constructor
  · intro j small has
    by_cases here : j = i
    · rw [here, self.2]
      exact notTable.1
    · rw [(others j here).2]
      exact mapping.notDirectory j small ((others j here).1.mp has)
  · intro j k userJ small hasJ hasK same
    by_cases hereJ : j = i
    · by_cases hereK : k = i
      · rw [hereJ, hereK]
      · rw [hereJ, self.2, (others k hereK).2] at same
        exact absurd same.symm (notTable.2 k small ((others k hereK).1.mp hasK))
    · have smallJ : j < 1024 := by
        simp only [UserTable] at userJ
        omega
      by_cases hereK : k = i
      · rw [hereK, self.2, (others j hereJ).2] at same
        exact absurd same (notTable.2 j smallJ ((others j hereJ).1.mp hasJ))
      · rw [(others j hereJ).2, (others k hereK).2] at same
        exact mapping.unshared j k userJ small ((others j hereJ).1.mp hasJ)
          ((others k hereK).1.mp hasK) same
  · intro v userV present
    rw [words v (user_small userV)] at present ⊢
    exact mapping.pool v userV present
  · intro p small present
    have room := mapping.room
    have inside : directPage (pg.base + p) < 2 ^ 20 := by
      have below : p < pg.count := small
      simp only [directPage]
      omega
    have word := words _ inside
    have name : (pg.newTable pg.pde i frame).base = pg.base := rfl
    rw [name] at present ⊢
    rw [word] at present ⊢
    exact mapping.direct p small present
  · exact mapping.room

/-- A write to the entry of a user page changes the entry of no other page. -/
theorem pte_setUser (mapping : pg.Mapping) (user : UserPage v) (has : pg.HasTable (v / 2 ^ 10))
    (small : w < 2 ^ 32) (inside : u < 2 ^ 20) :
    (pg.setEntry (pg.table (v / 2 ^ 10)) (v % 2 ^ 10) w).pte u = if u = v then w else pg.pte u := by
  have index := user.table
  rw [pte_setEntry_slot (mapping.layout.notDirectory _ index has) small]
  by_cases same : u = v
  · rw [if_pos same, if_pos (by rw [same]; exact ⟨has, rfl, rfl⟩)]
  · rw [if_neg same, if_neg]
    rintro ⟨hasU, table, offset⟩
    have tables := mapping.unshared _ (u / 2 ^ 10) index (by omega) has hasU table.symm
    omega

theorem setUser (mapping : pg.Mapping) (user : UserPage v) (has : pg.HasTable (v / 2 ^ 10))
    (small : w < 2 ^ 32) (named : ∃ p < pg.count, Entry.addr w = pg.base + p) :
    (pg.setEntry (pg.table (v / 2 ^ 10)) (v % 2 ^ 10) w).Mapping ∧
      SameTables pg (pg.setEntry (pg.table (v / 2 ^ 10)) (v % 2 ^ 10) w) := by
  have same : SameTables pg (pg.setEntry (pg.table (v / 2 ^ 10)) (v % 2 ^ 10) w) :=
    ⟨rfl, rfl, rfl, memory_setEntry_of_ne (mapping.layout.notDirectory _ user.table has).symm⟩
  refine ⟨mapping.congr same ?_, same⟩
  intro u inside _
  rw [pte_setUser mapping user has small inside]
  by_cases here : u = v
  · rw [if_pos here]
    exact .inr ⟨here ▸ user, named⟩
  · rw [if_neg here]
    exact .inl rfl

/-- A page is filled and mapped at the entry of a user page. -/
theorem installed {ref : Nat → Int} {sign : Nat} (mapping : pg.Mapping)
    (notTable : pg.NotTable (pg.base + p)) (below : p < pg.count) (user : UserPage v)
    (has : pg.HasTable (v / 2 ^ 10)) :
    (pg.installed v (pg.base + p) sign bytes ref).Mapping ∧
      SameTables pg (pg.installed v (pg.base + p) sign bytes ref) ∧
      ∀ u < 2 ^ 20, (pg.installed v (pg.base + p) sign bytes ref).pte u =
        if u = v then Entry.setAddr (Entry.setSign (pg.pte v) sign) (pg.base + p) else pg.pte u := by
  let loaded := { pg with memory := Function.update pg.memory (pg.base + p) bytes }
  let word := Entry.setAddr (Entry.setSign (pg.pte v) sign) (pg.base + p)
  have room := mapping.room
  have directory : loaded.memory pg.pde = pg.memory pg.pde :=
    Function.update_of_ne notTable.1.symm _ _
  have same : SameTables pg loaded := ⟨rfl, rfl, rfl, directory⟩
  have tables := @SameTables.tables pg loaded (v / 2 ^ 10) same
  have read : loaded.Mapping := mapping.load notTable
  have named : ∃ q < pg.count, Entry.addr word = pg.base + q :=
    ⟨p, below, Entry.addr_set (by omega)⟩
  obtain ⟨written, more⟩ := @Mapping.setUser loaded v word read user (tables.1.mpr has) Entry.set_lt
    named
  have words := fun u inside => @pte_setUser loaded v u word read user (tables.1.mpr has) Entry.set_lt
    inside
  rw [tables.2] at written more words
  have whole := same.trans more
  refine ⟨written.of_memory rfl rfl rfl rfl, ⟨rfl, rfl, rfl, whole.directory⟩, ?_⟩
  · intro u inside
    have word := words u inside
    rw [load_pte notTable inside] at word
    exact (pte_of_memory rfl rfl).trans word

end Mapping

end Paging

end WindOs.Mm
