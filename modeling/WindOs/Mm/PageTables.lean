import WindOs.Mm.Paging

namespace WindOs.Mm

open Data

/-! # The user pages of the global directory

`pte` reads the entry of a page number through the directory and its table.  The
lemmas say which writes to memory change it.
-/

namespace Entry

variable {entry addr sign : Nat}

theorem present_set (odd : sign % 2 = 1) : Present (setAddr (setSign entry sign) addr) := by
  simp only [present_iff, setAddr, setSign]
  omega

theorem addr_set (small : addr < 2 ^ 20) : Entry.addr (setAddr entry addr) = addr := by
  simp only [Entry.addr, setAddr]
  omega

theorem set_lt : setAddr entry addr < 2 ^ 32 := by
  simp only [setAddr]
  omega

theorem setSign_lt (small : entry < 2 ^ 32) : setSign entry sign < 2 ^ 32 := by
  simp only [setSign]
  omega

theorem not_present_zero : ¬ Present 0 := by decide

end Entry

/-- The numbers of the pages in `[0x400000, 0xC0000000)`. -/
def UserPage (v : Nat) : Prop := 0x400 ≤ v ∧ v < 0xC0000

/-- The indices of their tables in a directory. -/
def UserTable (i : Nat) : Prop := 1 ≤ i ∧ i < 768

theorem UserPage.table {v : Nat} (user : UserPage v) : UserTable (v / 2 ^ 10) := by
  simp only [UserPage] at user
  simp only [UserTable]
  omega

namespace Paging

variable {pg after : Paging} {frame i j v u w la : Nat}

def HasTable (pg : Paging) (i : Nat) : Prop := Entry.Present (pg.entry pg.pde i)

instance (pg : Paging) (i : Nat) : Decidable (pg.HasTable i) :=
  inferInstanceAs (Decidable (Entry.Present _))

def table (pg : Paging) (i : Nat) : Nat := Entry.addr (pg.entry pg.pde i)

/-- The entry of a page, 0 if there is no table for it. -/
def pte (pg : Paging) (v : Nat) : Nat :=
  if pg.HasTable (v / 2 ^ 10) then pg.entry (pg.table (v / 2 ^ 10)) (v % 2 ^ 10) else 0

theorem pte_of_table (has : pg.HasTable (v / 2 ^ 10)) :
    pg.pte v = pg.entry (pg.table (v / 2 ^ 10)) (v % 2 ^ 10) := if_pos has

theorem hasTable_of_present (present : Entry.Present (pg.pte v)) : pg.HasTable (v / 2 ^ 10) := by
  by_contra missing
  rw [pte, if_neg missing] at present
  exact Entry.not_present_zero present

theorem entry_lt : pg.entry frame i < 2 ^ 32 := Bytes.word_lt

theorem lookupPte_of_table (has : pg.HasTable (v / 2 ^ 10)) (page : la / 2 ^ 12 = v) :
    pg.lookupPte pg.pde la = some (pg.table (v / 2 ^ 10), v % 2 ^ 10) := by
  have index : la / 2 ^ 22 = v / 2 ^ 10 := by omega
  rw [lookupPte, index, page]
  exact if_pos has

theorem lookupPte_of_missing (missing : ¬ pg.HasTable (v / 2 ^ 10)) (page : la / 2 ^ 12 = v) :
    pg.lookupPte pg.pde la = none := by
  have index : la / 2 ^ 22 = v / 2 ^ 10 := by omega
  rw [lookupPte, index]
  exact if_neg missing

theorem translate_eq (page : la / 2 ^ 12 = v) :
    pg.translate pg.pde la =
      if Entry.Present (pg.pte v) then some (Entry.addr (pg.pte v)) else none := by
  by_cases has : pg.HasTable (v / 2 ^ 10)
  · rw [translate, lookupPte_of_table has page, pte_of_table has, Option.bind_some]
  · rw [translate, lookupPte_of_missing has page, pte, if_neg has, if_neg Entry.not_present_zero,
      Option.bind_none]

theorem entry_setEntry_self (small : w < 2 ^ 32) : (pg.setEntry frame i w).entry frame i = w := by
  simp [entry, setEntry, Bytes.word_setWord_self small]

theorem entry_setEntry_of_index (different : j ≠ i) :
    (pg.setEntry frame i w).entry frame j = pg.entry frame j := by
  simp [entry, setEntry, Bytes.word_setWord_of_ne different]

theorem memory_setEntry_of_ne {other : Nat} (different : other ≠ frame) :
    (pg.setEntry frame i w).memory other = pg.memory other :=
  Function.update_of_ne different _ _

theorem entry_setEntry_of_frame {other : Nat} (different : other ≠ frame) :
    (pg.setEntry frame i w).entry other j = pg.entry other j := by
  rw [entry, memory_setEntry_of_ne different, entry]

theorem setEntry_setEntry {w' : Nat} :
    (pg.setEntry frame i w).setEntry frame i w' = pg.setEntry frame i w' := by
  simp only [setEntry, Function.update_self, Function.update_idem, Bytes.setWord_setWord]

/-- The directory is none of its user tables, and no two of them coincide. -/
structure Layout (pg : Paging) : Prop where
  notDirectory : ∀ i, UserTable i → pg.HasTable i → pg.table i ≠ pg.pde
  injective : ∀ i j, UserTable i → UserTable j → pg.HasTable i → pg.HasTable j →
    pg.table i = pg.table j → i = j

/-- The frame holds neither the directory nor a user table. -/
def Plain (pg : Paging) (frame : Nat) : Prop :=
  frame ≠ pg.pde ∧ ∀ i, UserTable i → pg.HasTable i → pg.table i ≠ frame

theorem hasTable_congr (pde : after.pde = pg.pde) (same : after.memory pg.pde = pg.memory pg.pde) :
    (after.HasTable i ↔ pg.HasTable i) ∧ after.table i = pg.table i := by
  simp only [HasTable, table, entry, pde, same, and_self]

theorem pte_eq_of_table (pde : after.pde = pg.pde)
    (directory : after.memory pg.pde = pg.memory pg.pde)
    (tables : pg.HasTable (v / 2 ^ 10) →
      after.memory (pg.table (v / 2 ^ 10)) = pg.memory (pg.table (v / 2 ^ 10))) :
    after.pte v = pg.pte v := by
  have same := @hasTable_congr pg after (v / 2 ^ 10) pde directory
  by_cases has : pg.HasTable (v / 2 ^ 10)
  · rw [pte_of_table has, pte_of_table (same.1.mpr has), same.2, entry, tables has, entry]
  · rw [pte, pte, if_neg has, if_neg (fun inside => has (same.1.mp inside))]

theorem pte_of_memory (pde : after.pde = pg.pde) (memory : after.memory = pg.memory) :
    after.pte v = pg.pte v :=
  pte_eq_of_table pde (by rw [memory]) (fun _ => by rw [memory])

/-- The entries are the same when memory differs in plain frames only. -/
theorem pte_congr (pde : after.pde = pg.pde) (user : UserPage v)
    (same : ∀ g, ¬ pg.Plain g → after.memory g = pg.memory g) : after.pte v = pg.pte v :=
  pte_eq_of_table pde (same pg.pde (fun plain => plain.1 rfl))
    (fun has => same _ (fun plain => plain.2 _ user.table has rfl))

theorem layout_congr (layout : pg.Layout) (pde : after.pde = pg.pde)
    (same : after.memory pg.pde = pg.memory pg.pde) : after.Layout := by
  have tables := fun i => @hasTable_congr pg after i pde same
  constructor
  · intro i user has
    rw [(tables i).2, pde]
    exact layout.notDirectory i user ((tables i).1.mp has)
  · intro i j userI userJ hasI hasJ equal
    rw [(tables i).2, (tables j).2] at equal
    exact layout.injective i j userI userJ ((tables i).1.mp hasI) ((tables j).1.mp hasJ) equal

theorem plain_congr (pde : after.pde = pg.pde) (same : after.memory pg.pde = pg.memory pg.pde) :
    after.Plain frame ↔ pg.Plain frame := by
  have tables := fun i => @hasTable_congr pg after i pde same
  simp only [Plain, pde, tables]

/-- A write to a table changes the entries that are read from that place. -/
theorem pte_setEntry_slot (different : frame ≠ pg.pde) (small : w < 2 ^ 32) :
    (pg.setEntry frame i w).pte u =
      if pg.HasTable (u / 2 ^ 10) ∧ pg.table (u / 2 ^ 10) = frame ∧ u % 2 ^ 10 = i then w
      else pg.pte u := by
  have directory : (pg.setEntry frame i w).memory pg.pde = pg.memory pg.pde :=
    memory_setEntry_of_ne different.symm
  have tables := @hasTable_congr pg (pg.setEntry frame i w) (u / 2 ^ 10) rfl directory
  by_cases has : pg.HasTable (u / 2 ^ 10)
  · rw [pte_of_table (tables.1.mpr has), tables.2, pte_of_table has]
    by_cases here : pg.table (u / 2 ^ 10) = frame
    · rw [here]
      by_cases index : u % 2 ^ 10 = i
      · rw [index, if_pos ⟨has, rfl, rfl⟩, entry_setEntry_self small]
      · rw [if_neg (fun all => index all.2.2), entry_setEntry_of_index index]
    · rw [if_neg (fun all => here all.2.1), entry_setEntry_of_frame here]
  · rw [if_neg (fun all => has all.1), pte, pte, if_neg has,
      if_neg (fun inside => has (tables.1.mp inside))]

/-- A write to the entry of a user page changes that entry alone. -/
theorem pte_setEntry (layout : pg.Layout) (userV : UserPage v) (userU : UserPage u)
    (has : pg.HasTable (v / 2 ^ 10)) (small : w < 2 ^ 32) :
    (pg.setEntry (pg.table (v / 2 ^ 10)) (v % 2 ^ 10) w).pte u = if u = v then w else pg.pte u := by
  rw [pte_setEntry_slot (layout.notDirectory _ userV.table has) small]
  by_cases same : u = v
  · rw [if_pos same, if_pos (by rw [same]; exact ⟨has, rfl, rfl⟩)]
  · rw [if_neg same, if_neg]
    rintro ⟨hasU, table, index⟩
    have tables := layout.injective _ _ userU.table userV.table hasU has table
    omega

end Paging

end WindOs.Mm
