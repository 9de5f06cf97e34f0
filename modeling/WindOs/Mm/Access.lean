import WindOs.Data.Machine
import WindOs.Mm.Fault

namespace WindOs.Mm

open Data

/-! # Swapping is transparent

A kernel-mode access walks the page tables and is tried again after `do_swap` when
its page is not present.  Whatever is evicted in between, a byte reads as it was
last written, but for one thing: an evicted page is on the free list under its raised
pointer, to which `alloc_page` adds `VERTUAL_MEM` once more.
-/

namespace VmaList

variable {mm : VmaList} {order : List Nat} {addr : Nat}

/-- The list of VMAs is in user space, page-aligned, readable and writable.  Whether
they overlap makes no difference. -/
structure UserVmas (mm : VmaList) (order : List Nat) : Prop where
  ring : mm.nodes.IsRing .head (order.map .vma)
  named : ∀ v ∈ order, v < mm.allocated
  cached : ∀ v, mm.cache = some v → v ∈ order
  aligned : ∀ v ∈ order, (mm.vmas v).vmmStart % pageSize = 0 ∧ (mm.vmas v).vmmEnd % pageSize = 0
  inside : ∀ v ∈ order, 0x400000 ≤ (mm.vmas v).vmmStart ∧ (mm.vmas v).vmmEnd ≤ 0xC0000000
  permitted : ∀ v ∈ order, (mm.vmas v).flags &&& 0x2 ≠ 0 ∧ (mm.vmas v).flags &&& (0x1 ||| 0x4) ≠ 0

/-- The address lies in one of the VMAs. -/
def Covers (mm : VmaList) (order : List Nat) (addr : Nat) : Prop :=
  ∃ v ∈ order, (mm.vmas v).vmmStart ≤ addr ∧ addr < (mm.vmas v).vmmEnd

instance (mm : VmaList) (order : List Nat) (addr : Nat) : Decidable (mm.Covers order addr) :=
  inferInstanceAs (Decidable (∃ v ∈ order, _))

namespace UserVmas

theorem length_le (vmas : mm.UserVmas order) : order.length ≤ mm.allocated := by
  have nodup : order.Nodup := (List.nodup_cons.mp vmas.ring.nodup).2.of_map
  have inside : order ⊆ List.range mm.allocated := by
    intro v member
    exact List.mem_range.mpr (vmas.named v member)
  simpa using (nodup.subperm inside).length_le

theorem withCache (vmas : mm.UserVmas order) {v : Nat} (member : v ∈ order) :
    { mm with cache := some v }.UserVmas order where
  ring := vmas.ring
  named := vmas.named
  cached w same := by
    cases same
    exact member
  aligned := vmas.aligned
  inside := vmas.inside
  permitted := vmas.permitted

/-- `find_vma` of an address in a VMA finds one of the VMAs. -/
theorem findVma (vmas : mm.UserVmas order) (covered : mm.Covers order addr) :
    ∃ v ∈ order, ∃ after, mm.findVma (mm.allocated + 1) addr = some (some v, after) ∧
      after.vmas = mm.vmas ∧ after.UserVmas order := by
  have length := vmas.length_le
  by_cases hit : ∃ v, mm.cache = some v ∧ (mm.vmas v).vmmStart < addr ∧ (mm.vmas v).vmmEnd > addr
  · obtain ⟨v, cached, inside⟩ := hit
    exact ⟨v, vmas.cached v cached, mm, findVma_hit cached inside, rfl, vmas⟩
  · have scanned := @findVma_miss _ _ (mm.allocated + 1) vmas.ring (by omega) addr
      fun v cached inside => hit ⟨v, cached, inside⟩
    cases found : mm.holder order addr with
    | none =>
        obtain ⟨v, member, inside⟩ := covered
        exact absurd inside (holder_eq_none.mp found v member)
    | some v =>
        have member := List.mem_of_find?_eq_some found
        rw [found] at scanned
        exact ⟨v, member, _, scanned, rfl, vmas.withCache member⟩

/-- The page of a covered address begins in the same VMA. -/
theorem rounddown (vmas : mm.UserVmas order) (covered : mm.Covers order addr) :
    mm.Covers order (pageSize * (addr / pageSize)) ∧ UserPage (addr / pageSize) := by
  obtain ⟨v, member, lower, upper⟩ := covered
  obtain ⟨startAligned, endAligned⟩ := vmas.aligned v member
  obtain ⟨low, high⟩ := vmas.inside v member
  simp only [pageSize] at startAligned endAligned ⊢
  refine ⟨⟨v, member, ?_, ?_⟩, ?_, ?_⟩ <;> omega

end UserVmas

end VmaList

namespace Paging

variable {pg after : Paging} {blocks : List (Nat × Nat)} {list order : List Nat} {addr : Nat}
  {isWrite : Bool}

section Access

variable [Aliases] (alloc : Paging → Except Halt (Option Nat × Paging))

/-- The frame that an access reaches, after a page fault if there is one. -/
def resolve (pg : Paging) (addr : Nat) (isWrite : Bool) : Except Halt (Nat × Paging) :=
  match pg.translate pg.pde addr with
  | some frame => .ok (frame, pg)
  | none => do
      let pg ← pg.doSwap alloc addr isWrite
      match pg.translate pg.pde addr with
      | some frame => .ok (frame, pg)
      | none => .error (.fault addr)

def readByte (pg : Paging) (addr : Nat) : Except Halt (UInt8 × Paging) := do
  let (frame, pg) ← pg.resolve alloc addr false
  .ok (pg.memory frame (addr % pageSize), pg)

def writeByte (pg : Paging) (addr : Nat) (byte : UInt8) : Except Halt Paging := do
  let (frame, pg) ← pg.resolve alloc addr true
  .ok { pg with
    memory := Function.update pg.memory frame ((pg.memory frame).setByte (addr % pageSize) byte) }

end Access

/-- An access takes no page that is linked by its raised pointer. -/
def AccessPhysical [Aliases] (pg : Paging) (addr : Nat) : Prop :=
  Entry.Present (pg.pte (addr / pageSize)) ∨ pg.TakesPhysical (addr / pageSize)

section Served

variable [Aliases] [PageState.Keeper]

/-- `do_swap` at an address of a VMA whose page is not present. -/
theorem Sound.doSwap (sound : pg.Sound blocks list) (vmas : pg.mm.UserVmas order)
    (covered : pg.mm.Covers order addr) (absent : ¬ Entry.Present (pg.pte (addr / pageSize))) :
    pg.doSwap Paging.allocFresh addr isWrite = .error .allocator ∨
      (¬ pg.TakesPhysical (addr / pageSize) ∧
        ∃ page, pg.doSwap Paging.allocFresh addr isWrite = .error (.wildPage page)) ∨
      pg.TakesPhysical (addr / pageSize) ∧ ∃ after remaining,
        pg.doSwap Paging.allocFresh addr isWrite = .ok after ∧
        after.Sound blocks remaining ∧ after.mm.vmas = pg.mm.vmas ∧ after.mm.UserVmas order ∧
        after.pde = pg.pde ∧ Held pg after ∧ Entry.Present (after.pte (addr / pageSize)) := by
  obtain ⟨covers, user⟩ := vmas.rounddown covered
  obtain ⟨v, member, mm, found, fields, vmasAfter⟩ := vmas.findVma covers
  have start : addr - addr % pageSize = pageSize * (addr / pageSize) := by
    have split := Nat.div_add_mod addr pageSize
    omega
  obtain ⟨writable, readable⟩ := vmas.permitted v member
  rw [← fields] at writable readable
  have mayWrite : ¬ (isWrite = true ∧ (mm.vmas v).flags &&& 0x2 = 0) := fun denied =>
    writable denied.2
  have mayRead : ¬ (¬ isWrite = true ∧ (mm.vmas v).flags &&& (0x1 ||| 0x4) = 0) := fun denied =>
    readable denied.2
  have odd : (if (mm.vmas v).flags &&& 0x2 = 1 then 0x7 else 0x5) % 2 = 1 := by
    split <;> rfl
  have searched : { pg with mm }.Sound blocks list :=
    ⟨layout_congr sound.layout rfl rfl, sound.queued, sound.words, sound.mapped, sound.plain⟩
  unfold Paging.doSwap
  simp only [start, found, if_neg mayWrite, if_neg mayRead]
  have bound := searched.bindPage user absent odd
  rcases bound with failed | halted |
      ⟨takes, after, remaining, done, soundAfter, sameMm, pde, held, present⟩
  · exact .inl failed
  · exact .inr (.inl halted)
  · refine .inr (.inr ⟨takes, after, remaining, done, soundAfter, ?_, ?_, pde, held, present⟩)
    · rw [sameMm]
      exact fields
    · rw [sameMm]
      exact vmasAfter

/-- An access reaches the frame of its page, after a page fault if need be. -/
theorem Sound.resolve (sound : pg.Sound blocks list) (vmas : pg.mm.UserVmas order)
    (covered : pg.mm.Covers order addr) :
    pg.resolve Paging.allocFresh addr isWrite = .error .allocator ∨
      (¬ pg.AccessPhysical addr ∧
        ∃ page, pg.resolve Paging.allocFresh addr isWrite = .error (.wildPage page)) ∨
      pg.AccessPhysical addr ∧ ∃ frame after remaining,
        pg.resolve Paging.allocFresh addr isWrite = .ok (frame, after) ∧
        after.Sound blocks remaining ∧ after.mm.vmas = pg.mm.vmas ∧ after.mm.UserVmas order ∧
        Held pg after ∧ Entry.Present (after.pte (addr / pageSize)) ∧
        Entry.addr (after.pte (addr / pageSize)) = frame := by
  have walk : ∀ pg : Paging, pg.translate pg.pde addr =
      if Entry.Present (pg.pte (addr / pageSize)) then
        some (Entry.addr (pg.pte (addr / pageSize))) else none := fun pg => translate_eq rfl
  unfold Paging.resolve
  by_cases present : Entry.Present (pg.pte (addr / pageSize))
  · rw [walk, if_pos present]
    exact .inr (.inr ⟨.inl present, _, pg, list, rfl, sound, rfl, vmas, fun _ _ _ same => same,
      present, rfl⟩)
  · rw [walk, if_neg present]
    rcases @Sound.doSwap pg blocks list order addr isWrite _ _ sound vmas covered present with failed |
        ⟨wild, page, halted⟩ |
        ⟨takes, after, remaining, done, soundAfter, fields, vmasAfter, -, held, resident⟩
    · rw [failed]
      exact .inl rfl
    · rw [halted]
      exact .inr (.inl ⟨fun access => access.elim present wild, page, rfl⟩)
    · rw [done]
      refine .inr (.inr ⟨.inr takes, _, after, remaining, ?_, soundAfter, fields, vmasAfter, held,
        resident, rfl⟩)
      show (match after.translate after.pde addr with
        | some frame => Except.ok (frame, after)
        | none => .error (Halt.fault addr)) = _
      rw [walk, if_pos resident]

/-- A byte is written to a resident page. -/
theorem Sound.write (sound : pg.Sound blocks list) (user : UserPage (addr / pageSize))
    (present : Entry.Present (pg.pte (addr / pageSize))) (byte : UInt8) :
    let written : Paging := { pg with
      memory := Function.update pg.memory (Entry.addr (pg.pte (addr / pageSize)))
        ((pg.memory (Entry.addr (pg.pte (addr / pageSize)))).setByte (addr % pageSize) byte) }
    written.Sound blocks list ∧ written.contents addr = some byte ∧
      ∀ other, UserPage (other / pageSize) → other ≠ addr →
        written.contents other = pg.contents other := by
  intro written
  have plain := sound.plain _ (sound.resident user present).1
  have same : ∀ u, UserPage u → written.pte u = pg.pte u := by
    intro u userU
    exact (@loaded_same pg _ 0 u _ plain userU).2
  have directory : written.memory pg.pde = pg.memory pg.pde :=
    Function.update_of_ne plain.1.symm _ _
  refine ⟨⟨@layout_congr pg written sound.layout rfl directory, sound.queued, ?_, ?_, ?_⟩, ?_, ?_⟩
  · intro u userU
    rw [same u userU]
    exact sound.words u userU
  · intro g member
    obtain ⟨u, userU, placed, presentU, sameU⟩ := sound.mapped g member
    exact ⟨u, userU, placed, by rwa [same u userU], by rwa [same u userU]⟩
  · intro g member
    rw [@plain_congr pg written g rfl directory]
    exact sound.plain g member
  · rw [contents_resident (by rwa [same _ user]), same _ user]
    show some (Function.update pg.memory _ _ _ _) = _
    rw [Function.update_self, Bytes.setByte_self]
  · intro other userO different
    apply contents_congr (same _ userO)
    · intro presentO
      show Function.update pg.memory _ _ _ _ = _
      by_cases shared : Entry.addr (pg.pte (other / pageSize)) = Entry.addr (pg.pte (addr / pageSize))
      · have page := sound.page_unique userO user presentO present shared
        have offset : other % pageSize ≠ addr % pageSize := by
          intro equal
          apply different
          rw [← Nat.div_add_mod other pageSize, page, equal, Nat.div_add_mod]
        rw [shared, Function.update_self, Bytes.setByte_of_ne offset]
      · rw [Function.update_of_ne shared]
    · intro _ _
      rfl

end Served

/-- The machine with, for every address, the byte that was last written to it. -/
structure Accessed where
  pg : Paging
  written : Nat → Option UInt8

inductive Access where
  | read (addr : Nat)
  | write (addr : Nat) (byte : UInt8)
deriving DecidableEq, Repr

namespace Accessed

section Faithful

variable [Aliases]

/-- An access in one of the VMAs. -/
def step (order : List Nat) (state : Accessed) : Access → Option Accessed
  | .read addr =>
      if state.pg.mm.Covers order addr then
        match state.pg.readByte allocFresh addr with
        | .ok (_, pg) => some { state with pg }
        | .error _ => none
      else none
  | .write addr byte =>
      if state.pg.mm.Covers order addr then
        match state.pg.writeByte allocFresh addr byte with
        | .ok pg => some { pg, written := Function.update state.written addr (some byte) }
        | .error _ => none
      else none

/-- Before the first access no user page is mapped, and no page is queued. -/
structure Start [PageState.Keeper] (order : List Nat) (state : Accessed) : Prop where
  vmas : state.pg.mm.UserVmas order
  queued : state.pg.Queued [] []
  tables : ∀ i, UserTable i → ¬ state.pg.HasTable i
  unwritten : ∀ addr, state.written addr = none

def machine [PageState.Keeper] (order : List Nat) : Machine Accessed Access where
  start := Start order
  step := step order

/-- What was written is what the pages hold. -/
structure Faithful [PageState.Keeper] (order : List Nat) (state : Accessed) : Prop where
  vmas : state.pg.mm.UserVmas order
  sound : ∃ list, state.pg.Sound [] list
  held : ∀ addr, UserPage (addr / pageSize) → ∀ byte, state.written addr = some byte →
    state.pg.contents addr = some byte

variable [PageState.Keeper] {state next : Accessed} {access : Access}

theorem Start.faithful (start : Start order state) : Faithful order state := by
  have missing : ∀ v, UserPage v → state.pg.pte v = 0 :=
    fun v user => if_neg (start.tables _ user.table)
  refine ⟨start.vmas, ⟨[], ?_⟩, ?_⟩
  · refine ⟨⟨?_, ?_⟩, start.queued, fun v user => .inl (missing v user), by simp, by simp⟩
    · intro i user has
      exact absurd has (start.tables i user)
    · intro i _ user _ has
      exact absurd has (start.tables i user)
  · intro addr _ byte written
    rw [start.unwritten] at written
    contradiction

theorem Faithful.read (faithful : Faithful order state) (covered : state.pg.mm.Covers order addr) :
    state.pg.readByte allocFresh addr = .error .allocator ∨
      (¬ state.pg.AccessPhysical addr ∧
        ∃ page, state.pg.readByte allocFresh addr = .error (.wildPage page)) ∨
      state.pg.AccessPhysical addr ∧
        ∃ byte pg, state.pg.readByte allocFresh addr = .ok (byte, pg) ∧
        Faithful order { state with pg } ∧ ∀ last, state.written addr = some last → byte = last := by
  obtain ⟨list, sound⟩ := faithful.sound
  have user := (faithful.vmas.rounddown covered).2
  unfold Paging.readByte
  rcases @Sound.resolve _ [] list order addr false _ _ sound faithful.vmas covered with failed |
      ⟨wild, page, halted⟩ |
      ⟨physical, frame, after, remaining, done, soundAfter, -, vmas, held, present, reached⟩
  · rw [failed]
    exact .inl rfl
  · rw [halted]
    exact .inr (.inl ⟨wild, page, rfl⟩)
  · rw [done]
    refine .inr (.inr ⟨physical, _, after, rfl, ⟨vmas, ⟨remaining, soundAfter⟩, ?_⟩, ?_⟩)
    · intro other userO byte written
      exact held other userO byte (faithful.held other userO byte written)
    · intro last written
      have now := held addr user last (faithful.held addr user last written)
      rw [contents_resident present, reached] at now
      exact Option.some.inj now

theorem Faithful.write (faithful : Faithful order state) (covered : state.pg.mm.Covers order addr)
    (byte : UInt8) :
    state.pg.writeByte allocFresh addr byte = .error .allocator ∨
      (¬ state.pg.AccessPhysical addr ∧
        ∃ page, state.pg.writeByte allocFresh addr byte = .error (.wildPage page)) ∨
      state.pg.AccessPhysical addr ∧
        ∃ pg, state.pg.writeByte allocFresh addr byte = .ok pg ∧
        Faithful order { pg, written := Function.update state.written addr (some byte) } := by
  obtain ⟨list, sound⟩ := faithful.sound
  have user := (faithful.vmas.rounddown covered).2
  unfold Paging.writeByte
  rcases @Sound.resolve _ [] list order addr true _ _ sound faithful.vmas covered with failed |
      ⟨wild, page, halted⟩ |
      ⟨physical, frame, after, remaining, done, soundAfter, -, vmas, held, present, rfl⟩
  · rw [failed]
    exact .inl rfl
  · rw [halted]
    exact .inr (.inl ⟨wild, page, rfl⟩)
  · rw [done]
    obtain ⟨soundWritten, here, elsewhere⟩ := soundAfter.write user present byte
    refine .inr (.inr ⟨physical, _, rfl, ⟨vmas, ⟨remaining, soundWritten⟩, ?_⟩⟩)
    intro other userO last written
    change Function.update state.written addr (some byte) other = some last at written
    by_cases same : other = addr
    · subst same
      rw [Function.update_self] at written
      cases written
      exact here
    · rw [Function.update_of_ne same] at written
      have kept := held other userO last (faithful.held other userO last written)
      exact (elsewhere other userO same).trans kept

theorem Faithful.step (faithful : Faithful order state)
    (moved : state.step order access = some next) : Faithful order next := by
  cases access with
  | read addr =>
      simp only [Accessed.step] at moved
      split at moved
      · rename_i covered
        rcases faithful.read covered with failed | ⟨-, page, halted⟩ | ⟨-, byte, pg, done, kept, -⟩
        · rw [failed] at moved
          contradiction
        · rw [halted] at moved
          contradiction
        · rw [done] at moved
          cases moved
          exact kept
      · contradiction
  | write addr byte =>
      simp only [Accessed.step] at moved
      split at moved
      · rename_i covered
        rcases faithful.write covered byte with failed | ⟨-, page, halted⟩ | ⟨-, pg, done, kept⟩
        · rw [failed] at moved
          contradiction
        · rw [halted] at moved
          contradiction
        · rw [done] at moved
          cases moved
          exact kept
      · contradiction

end Faithful

variable {state : Accessed}

end Accessed

end Paging

end WindOs.Mm
