import WindOs.Mm.ForkParent

namespace WindOs.Mm

open Data

/-! # What a fork does to the parent

A present page is mapped anew in the child, where the copied table has the parent's
page.  `map` replaces that page by unmapping it at its kernel address, and through the
entry which it clears there the page should then be copied.
-/

namespace Paging

variable {pg : Paging} {old : VmaList} {pde fuel : Nat}

section Present

variable {after : Paging} {heap later : Heap} {blocks : List (Nat × Nat)} {free fifo : List Nat}
  {la page frame i start table nullIndex size addr : Nat}

theorem lookupPte_some (found : pg.lookupPte pde la = some (frame, i)) :
    Entry.Present (pg.entry pde (la / 2 ^ 22)) ∧
      Entry.addr (pg.entry pde (la / 2 ^ 22)) = frame ∧ la / 2 ^ 12 % 2 ^ 10 = i := by
  unfold lookupPte at found
  split at found
  · next present =>
      cases found
      exact ⟨present, rfl, rfl⟩
  · cases found

theorem lookupPte_congr {other : Nat}
    (same : after.entry other (la / 2 ^ 22) = pg.entry pde (la / 2 ^ 22)) :
    after.lookupPte other la = pg.lookupPte pde la := by
  rw [lookupPte, lookupPte, same]

theorem Stocked.spares {parent : PagedMm} (stocked : pg.Stocked)
    (queue : pg.area.nodes.IsRing .vmFifo (fifo.map .page))
    (quiet : pg.isVmmInited = false ∨ fifo = []) : pg.Spares parent := by
  refine ⟨stocked, ?_⟩
  intro q inited first
  rcases quiet with off | rfl
  · rw [off] at inited
    cases inited
  · rw [queue.next_head] at first
    cases first

/-- The loops begin with two equal directories, and with free pages that are neither
these nor tables. -/
structure Begun (pg : Paging) (pde oldPde : Nat) (blocks : List (Nat × Nat))
    (free fifo : List Nat) : Prop where
  same : pg.memory pde = pg.memory oldPde
  different : pde ≠ oldPde
  apart : ∀ table, pg.Refers oldPde table → table ≠ oldPde ∧ table ≠ pde
  quiet : pg.isVmmInited = false ∨ fifo = []
  rings : PageState.Rings pg.count { area := pg.area, blocks } free fifo
  room : pg.base + pg.count ≤ 2 ^ 18
  unused : ∀ p ∈ free, pg.base + p ≠ oldPde ∧ pg.base + p ≠ pde ∧ ¬ pg.Refers oldPde (pg.base + p)

theorem Begun.entries {oldPde : Nat} (begun : pg.Begun pde oldPde blocks free fifo) (j : Nat) :
    pg.entry pde j = pg.entry oldPde j := by
  rw [entry, begun.same, entry]

/-- The child has a table of its own, with the entries of the parent's. -/
structure Owned (pg after : Paging) (pde start frame table : Nat) (free fifo : List Nat) : Prop where
  place : after.lookupPte pde start = some (table, start / 2 ^ 12 % 2 ^ 10)
  copied : after.memory table = pg.memory frame
  others : ∀ g, g ≠ table → g ≠ pde → after.memory g = pg.memory g
  entries : ∀ j, j ≠ start / 2 ^ 22 → after.entry pde j = pg.entry pde j
  quiet : after.isVmmInited = false ∨ fifo = []
  lists : ∃ blocks rest, PageState.Rings after.count { area := after.area, blocks } rest fifo ∧
    ∀ r ∈ rest, r ∈ free
  fresh : ∃ p ∈ free, table = pg.base + p
  base : after.base = pg.base

/-- A new table in any directory. -/
theorem newTable_at (different : frame ≠ pde) (narrow : frame < 2 ^ 20) :
    (Entry.Present ((pg.newTable pde i frame).entry pde i) ∧
      Entry.addr ((pg.newTable pde i frame).entry pde i) = frame) ∧
    (∀ j, j ≠ i → (pg.newTable pde i frame).entry pde j = pg.entry pde j) ∧
    ∀ g, g ≠ frame → g ≠ pde → (pg.newTable pde i frame).memory g = pg.memory g := by
  have filled : ∀ j, { pg with
      ref := Function.update pg.ref frame 1
      memory := Function.update pg.memory frame Bytes.zero }.entry pde j = pg.entry pde j := by
    intro j
    simp only [entry, Function.update_of_ne different.symm]
  refine ⟨?_, ?_, ?_⟩
  · rw [newTable, entry_setEntry_self Entry.set_lt, Entry.addr_set narrow]
    exact ⟨Entry.present_set (by decide), rfl⟩
  · intro j elsewhere
    rw [newTable, entry_setEntry_of_index elsewhere, filled]
  · intro g notFrame notDirectory
    rw [newTable, memory_setEntry_of_ne notDirectory]
    exact Function.update_of_ne notFrame _ _

/-- Nothing changes when `malloc` takes pages from the free list. -/
theorem Begun.withArea {oldPde : Nat} {more : List (Nat × Nat)} {area : FreeArea} {rest : List Nat}
    (begun : pg.Begun pde oldPde blocks free fifo)
    (rings : PageState.Rings pg.count { area, blocks := more } rest fifo)
    (fewer : ∀ r ∈ rest, r ∈ free) : { pg with area }.Begun pde oldPde more rest fifo :=
  ⟨begun.same, begun.different, begun.apart, begun.quiet, rings, begun.room,
    fun p member => begun.unused p (fewer p member)⟩

theorem direct_table {word : Nat} (small : Entry.addr word < 2 ^ 18) :
    Entry.getPgAddrLa word / 2 ^ 22 < 1024 := by
  generalize address : Entry.addr word = f at small
  simp only [Entry.getPgAddrLa, pageSize, vertualMem, address]
  omega

section Pointers

variable [Aliases]

/-- A page is taken from the free list and none is evicted. -/
theorem alloc_quiet (rings : PageState.Rings pg.count { area := pg.area, blocks } free fifo)
    (quiet : pg.isVmmInited = false ∨ fifo = []) (done : pg.allocPage 1 = .ok (some page, after)) :
    ∃ p rest area, p ∈ free ∧ pg.area.nodes.next .head = .page p ∧ page = pg.base + p ∧
      after = { pg with area } ∧ pg.Stocked ∧
      PageState.Rings pg.count { area, blocks := (p, 1) :: blocks } rest fifo ∧
      ∀ r ∈ rest, r ∈ free ∧ r ≠ p := by
  rcases alloc_first rings with ⟨-, refused⟩ | ⟨p, rest, area, stocked, rfl, first, served, kept⟩
  · rw [allocPage_refused refused] at done
    cases done
  · refine ⟨p, rest, area, List.mem_cons_self, first, ?_⟩
    have others : ∀ r ∈ rest, r ∈ p :: rest ∧ r ≠ p := by
      intro r member
      exact ⟨List.mem_cons_of_mem _ member,
        ne_of_mem_of_not_mem member (List.nodup_cons.mp rings.nodup).1⟩
    rw [allocPage_served served] at done
    split at done
    · next evicts =>
        have empty : fifo = [] := quiet.resolve_left (by simp [evicts.1])
        subst empty
        have none : { pg with area }.area.nodes.next .vmFifo = .vmFifo := kept.queue.next_head
        rw [swapOut_empty none] at done
        cases done
        exact ⟨rfl, rfl, stocked, kept, others⟩
    · cases done
      exact ⟨rfl, rfl, stocked, kept, others⟩

theorem alloc_refused (rings : PageState.Rings pg.count { area := pg.area, blocks } free fifo)
    (done : pg.allocPage 1 = .ok (none, after)) :
    pg.area.allocPage (pg.count + 1) 1 = some (none, pg.area) := by
  rcases alloc_first rings with ⟨-, refused⟩ | ⟨p, rest, area, -, -, -, served, -⟩
  · exact refused
  · rw [allocPage_served served] at done
    obtain ⟨middle, -, ended⟩ := ok_of_bind done
    cases ended

/-- A `malloc` that returned was granted, and has at most taken a page from the free list. -/
theorem malloc_quiet (rings : PageState.Rings pg.count { area := pg.area, blocks } free fifo)
    (quiet : pg.isVmmInited = false ∨ fifo = [])
    (one : Heap.needPageNum ((chunkSize + size) % 2 ^ 32) = 1)
    (done : pg.malloc nullIndex fuel heap size = .ok (after, later, addr)) :
    (∀ parent, pg.Grants heap parent size) ∧
      Settles .unfinished (fun fuel => pg.malloc nullIndex fuel heap size) (after, later, addr) ∧
      ∃ area blocks rest, after = { pg with area } ∧
        PageState.Rings pg.count { area, blocks } rest fifo ∧ ∀ r ∈ rest, r ∈ free := by
  cases searched : heap.search fuel ((chunkSize + size) % 2 ^ 32) with
  | none =>
      simp only [malloc, searched] at done
      cases done
  | some found =>
      have settles := malloc_settles searched done
      simp only [malloc, searched, one] at done
      cases found with
      | some chunk =>
          cases done
          exact ⟨fun parent => .of_chunk searched, settles,
            pg.area, blocks, free, rfl, rings, fun _ member => member⟩
      | none =>
          obtain ⟨⟨found, middle⟩, allocated, ended⟩ := ok_of_bind done
          cases found with
          | none => cases ended
          | some page =>
              obtain ⟨p, rest, area, -, -, -, rfl, stocked, kept, fewer⟩ :=
                alloc_quiet rings quiet allocated
              cases ended
              exact ⟨fun parent => ⟨fuel, _, searched, fun _ => stocked.spares rings.queue quiet⟩,
                settles, area, _, rest, rfl, kept, fun r member => (fewer r member).1⟩

/-- `unmap` leaves an entry that is not present. -/
theorem unmap_clears (done : pg.unmap pde la = .ok after) :
    ∃ frame i, pg.lookupPte pde la = some (frame, i) ∧ ¬ Entry.Present (after.entry frame i) ∧
      ∀ g, g ≠ frame → after.memory g = pg.memory g := by
  cases lookup : pg.lookupPte pde la with
  | none =>
      unfold Paging.unmap at done
      rw [lookup] at done
      cases done
  | some pte =>
      obtain ⟨frame, i⟩ := pte
      unfold Paging.unmap at done
      rw [lookup] at done
      change (if Entry.Present (pg.entry frame i) then _ else _) = _ at done
      refine ⟨frame, i, rfl, ?_⟩
      by_cases present : Entry.Present (pg.entry frame i)
      · rw [if_pos present] at done
        obtain ⟨middle, dropped, cleared⟩ := ok_of_bind done
        obtain ⟨area, rfl, -⟩ := dropRef_ok dropped
        change Except.ok (Paging.invlpg (Paging.setEntry _ _ _ _) la) = _ at cleared
        rw [setEntry_setEntry, entry_setEntry_self Entry.set_lt] at cleared
        cases cleared
        constructor
        · intro stays
          refine Entry.cleared_absent (?_ : Entry.Present (Entry.cleared (pg.entry frame i)))
          rw [← @entry_setEntry_self { pg with
            ref := Function.update pg.ref (Entry.addr (pg.entry frame i))
              (pg.ref (Entry.addr (pg.entry frame i)) - 1)
            area } frame i _ Entry.cleared_lt]
          exact stays
        · intro g different
          exact memory_setEntry_of_ne different
      · rw [if_neg present] at done
        cases done
        exact ⟨present, fun _ _ => rfl⟩

/-- `map` in place of another page clears the entry at the kernel address of that page. -/
theorem map_cuts {sign : Nat} (has : Entry.Present (pg.entry pde (start / 2 ^ 22)))
    (place : pg.lookupPte pde start = some (frame, i)) (present : Entry.Present (pg.entry frame i))
    (other : Entry.addr (pg.entry frame i) ≠ page)
    (done : pg.map VmState.allocOne pde start page sign = .ok after) :
    ∃ table j, pg.lookupPte pde (Entry.getPgAddrLa (pg.entry frame i)) = some (table, j) ∧
      (table ≠ frame → ¬ Entry.Present (after.entry table j)) ∧
      ∀ g, g ≠ frame → g ≠ table → after.memory g = pg.memory g := by
  obtain ⟨⟨pte, middle⟩, got, ended⟩ := ok_of_bind done
  unfold getPte at got
  rw [if_pos has, place] at got
  cases got
  obtain ⟨slot, named, rest⟩ := ok_of_bind ended
  cases named
  obtain ⟨replaced, changed, written⟩ := ok_of_bind rest
  let counted := { pg with ref := Function.update pg.ref page (pg.ref page + 1) }
  have unmapped : counted.unmap pde (Entry.getPgAddrLa (pg.entry frame i)) = .ok replaced := by
    have stays : Entry.Present (counted.entry frame i) := present
    have different : ¬ Entry.addr (counted.entry frame i) = page := other
    change counted.replace pde frame i page = _ at changed
    unfold replace at changed
    rw [if_pos stays, if_neg different] at changed
    exact changed
  obtain ⟨table, j, lookup, cleared, kept⟩ := unmap_clears unmapped
  cases written
  refine ⟨table, j, lookup, ?_, ?_⟩
  · intro different stays
    apply cleared
    rw [← entry_setEntry_of_frame different, ← entry_setEntry_of_frame different]
    exact stays
  · intro g notFrame notTable
    rw [← kept g notTable]
    exact (memory_setEntry_of_ne notFrame).trans (memory_setEntry_of_ne notFrame)

/-- `get_pte(pde, la, 1)` where there is no table. -/
theorem getPte_missing {pte : Option (Nat × Nat)}
    (rings : PageState.Rings pg.count { area := pg.area, blocks } free fifo)
    (quiet : pg.isVmmInited = false ∨ fifo = [])
    (missing : ¬ Entry.Present (pg.entry pde (la / 2 ^ 22)))
    (done : pg.getPte VmState.allocOne pde la = .ok (pte, after)) :
    after = pg ∧ pg.area.allocPage (pg.count + 1) 1 = some (none, pg.area) ∨
      ∃ p rest area, p ∈ free ∧ after = { pg with area }.newTable pde (la / 2 ^ 22) (pg.base + p) ∧
        PageState.Rings pg.count { area, blocks := (p, 1) :: blocks } rest fifo ∧
        ∀ r ∈ rest, r ∈ free ∧ r ≠ p := by
  unfold getPte at done
  rw [if_neg missing] at done
  obtain ⟨⟨found, taken⟩, allocated, ended⟩ := ok_of_bind done
  cases found with
  | none =>
      have refused := alloc_refused rings allocated
      cases ended
      exact .inl ⟨allocPage_none allocated, refused⟩
  | some page =>
      obtain ⟨p, rest, area, member, -, rfl, rfl, -, kept, others⟩ := alloc_quiet rings quiet allocated
      obtain ⟨_, -, ended⟩ := ok_of_bind ended
      cases ended
      exact .inr ⟨p, rest, area, member, rfl, kept, others⟩

/-- The first `get_pte` finds the parent's table, and the second makes one for the child. -/
theorem Begun.ownTable {oldPde : Nat} (begun : pg.Begun pde oldPde blocks free fifo)
    (below : start < 2 ^ 32) (lookup : pg.lookupPte oldPde start = some (frame, i))
    (done : pg.ownTable pde oldPde start (frame, i) = .ok after) :
    after.area.allocPage (after.count + 1) 1 = some (none, after.area) ∨
      ∃ table, Owned pg after pde start frame table free fifo := by
  obtain ⟨has, named, index⟩ := lookupPte_some lookup
  have refers : pg.Refers oldPde frame := ⟨start / 2 ^ 22, by omega, has, named⟩
  have hasChild : Entry.Present (pg.entry pde (start / 2 ^ 22)) := by
    rw [begun.entries]
    exact has
  have same : pg.lookupPte pde start = some (frame, i) :=
    (lookupPte_congr (begun.entries _)).trans lookup
  obtain ⟨⟨pte, middle⟩, got, ended⟩ := ok_of_bind done
  unfold getPte at got
  rw [if_pos hasChild, same] at got
  cases got
  simp only [if_pos] at ended
  obtain ⟨⟨again, made⟩, created, copied⟩ := ok_of_bind ended
  let cleared := pg.setEntry pde (start / 2 ^ 22)
    (Entry.setSign (pg.entry pde (start / 2 ^ 22)) (0x4 ||| 0x2))
  have missing : ¬ Entry.Present (cleared.entry pde (start / 2 ^ 22)) := by
    have even : (0x4 ||| 0x2 : Nat) = 6 := rfl
    rw [entry_setEntry_self (Entry.setSign_lt entry_lt), Entry.present_iff, even]
    simp only [Entry.setSign]
    omega
  rcases @getPte_missing cleared pde made blocks free fifo start _ again begun.rings begun.quiet missing
      created with ⟨rfl, refused⟩ | ⟨p, rest, area, member, product, kept, others⟩
  · cases copied
    exact .inl refused
  · obtain ⟨notOld, notChild, notTable⟩ := begun.unused p member
    have bounded := begun.rings.listed p member
    have room := begun.room
    have new := @newTable_at { cleared with area } pde (pg.base + p) (start / 2 ^ 22) notChild (by omega)
    change made = { cleared with area }.newTable pde (start / 2 ^ 22) (pg.base + p) at product
    rw [← product] at new
    obtain ⟨⟨present, address⟩, rows, memories⟩ := new
    have untouched : ∀ g, g ≠ pg.base + p → g ≠ pde → made.memory g = pg.memory g := by
      intro g notPage notDirectory
      exact (memories g notPage notDirectory).trans (memory_setEntry_of_ne notDirectory)
    have old : Entry.addr (made.entry oldPde (start / 2 ^ 22)) = frame := by
      rw [← named, entry, untouched _ notOld.symm begun.different.symm, entry]
    have notPage : frame ≠ pg.base + p := fun here => notTable (here ▸ refers)
    have result := Except.ok.inj copied
    simp only [address, old, untouched frame notPage (begun.apart frame refers).2] at result
    have directory : ∀ j, after.entry pde j = made.entry pde j := by
      intro j
      rw [← result]
      simp only [entry, Function.update_of_ne notChild.symm]
    refine .inr ⟨pg.base + p, ?_, ?_, ?_, ?_, ?_, ?_, ⟨p, member, rfl⟩, ?_⟩
    · rw [lookupPte, directory, if_pos present, address]
    · rw [← result]
      exact Function.update_self _ _ _
    · intro g notTable notDirectory
      rw [← result]
      exact (Function.update_of_ne notTable _ _).trans (untouched g notTable notDirectory)
    · intro j elsewhere
      rw [directory, rows j elsewhere]
      exact entry_setEntry_of_index elsewhere
    · rw [← result, product]
      exact begun.quiet
    · rw [← result, product]
      exact ⟨_, rest, kept, fun r inRest => (others r inRest).1⟩
    · rw [← result, product]
      rfl

/-- A present page is never copied, unless its table is that of its kernel address: `map`
clears the entry through which it would be read. -/
theorem Begun.copyMapped_fails {oldPde : Nat} (begun : pg.Begun pde oldPde blocks free fifo)
    (below : start < 2 ^ 32) (lookup : pg.lookupPte oldPde start = some (frame, i))
    (present : Entry.Present (pg.entry frame i)) (small : Entry.addr (pg.entry frame i) < 2 ^ 18)
    (different : Entry.getPgAddrLa (pg.entry frame i) / 2 ^ 22 ≠ start / 2 ^ 22)
    (taken : ∀ p ∈ free, pg.base + p ≠ Entry.addr (pg.entry frame i)) :
    pg.copyMapped pde oldPde start (frame, i) ≠ .ok after := by
  intro done
  obtain ⟨owned, created, rest⟩ := ok_of_bind done
  obtain ⟨⟨found, left⟩, allocated, ended⟩ := ok_of_bind rest
  rcases begun.ownTable below lookup created with refused | ⟨table, own⟩
  · rw [allocPage_refused refused] at allocated
    cases allocated
    cases ended
  · cases found with
    | none => cases ended
    | some page =>
        obtain ⟨_, remaining, rings, fewer⟩ := own.lists
        obtain ⟨q, -, area, member, -, rfl, rfl, -⟩ := alloc_quiet rings own.quiet allocated
        obtain ⟨p, inFree, fresh⟩ := own.fresh
        obtain ⟨notOld, notChild, notTable⟩ := begun.unused p inFree
        rw [← fresh] at notOld notChild notTable
        obtain ⟨has, named, index⟩ := lookupPte_some lookup
        have refers : pg.Refers oldPde frame := ⟨start / 2 ^ 22, by omega, has, named⟩
        have source : owned.entry frame i = pg.entry frame i := by
          rw [entry, own.others frame (fun here => notTable (here ▸ refers)) (begun.apart frame refers).2,
            entry]
        have word : owned.entry table i = pg.entry frame i := by
          rw [entry, own.copied, entry]
        obtain ⟨mapped, called, copied⟩ := ok_of_bind ended
        have place := own.place
        rw [index] at place
        obtain ⟨kernel, j, found, cleared, kept⟩ := @map_cuts { owned with area } pde mapped
          (owned.base + q) table i start _ _ (lookupPte_some place).1 place
          (by rw [← word] at present; exact present)
          (by
            have other := taken q (fewer q member)
            rw [own.base]
            show Entry.addr (owned.entry table i) ≠ _
            rw [word]
            exact other.symm) called
        -- the kernel's entry is read through the parent's directory, which has the same table there
        change owned.lookupPte pde (Entry.getPgAddrLa (owned.entry table i)) = _ at found
        rw [word] at found
        have through : pg.lookupPte oldPde (Entry.getPgAddrLa (pg.entry frame i)) = some (kernel, j) :=
          (lookupPte_congr ((own.entries _ different).trans (begun.entries _)).symm).trans found
        obtain ⟨hasKernel, namedKernel, -⟩ := lookupPte_some through
        have refersKernel : pg.Refers oldPde kernel := ⟨_, direct_table small, hasKernel, namedKernel⟩
        have notOwn : kernel ≠ table := fun here => notTable (here ▸ refersKernel)
        have directory : mapped.memory oldPde = pg.memory oldPde :=
          (kept oldPde notOld.symm (begun.apart kernel refersKernel).1.symm).trans
            (own.others oldPde notOld.symm begun.different.symm)
        have lost : mapped.translate oldPde (Entry.getPgAddrLa (pg.entry frame i)) = none := by
          have same : mapped.lookupPte oldPde (Entry.getPgAddrLa (pg.entry frame i)) = some (kernel, j) :=
            (lookupPte_congr (congrArg (Bytes.word · _) directory)).trans through
          simp only [translate, same, Option.bind_some, if_neg (cleared notOwn)]
        change mapped.copyPage oldPde _ (Entry.getPgAddrLa (owned.entry frame i)) = _ at copied
        rw [source] at copied
        simp only [copyPage, lost] at copied
        cases copied

/-- What is known of a present page of a VMA: it is in the pool, in another table than its
kernel address, and not free. -/
def Placed (pg : Paging) (free : List Nat) (la frame : Nat) : Prop :=
  frame < 2 ^ 18 ∧ pgToAddrLa frame / 2 ^ 22 ≠ la / 2 ^ 22 ∧ ∀ p ∈ free, pg.base + p ≠ frame

/-- No page is copied: the loop over a VMA halts at the first one that is present. -/
theorem Begun.reached {oldPde vmmStart vmmEnd : Nat} {state : Nat × Paging}
    (begun : pg.Begun pde oldPde blocks free fifo) (fits : vmmEnd ≤ 0xFFC00000)
    (placed : ∀ la, vmmStart ≤ la → la < vmmEnd → ∀ frame, pg.translate oldPde la = some frame →
      pg.Placed free la frame)
    (reached : Reached (copyPageRound pde oldPde vmmEnd) (vmmStart, pg) state) :
    state.2 = pg ∧ vmmStart ≤ state.1 := by
  induction reached with
  | start => exact ⟨rfl, Nat.le_refl _⟩
  | @round state next _ again ih =>
      obtain ⟨start, middle⟩ := state
      obtain ⟨rfl, above⟩ : middle = pg ∧ vmmStart ≤ start := ih
      simp only [copyPageRound] at again
      split at again
      · next more =>
          have under : start < 0xFFC00000 := Nat.lt_of_lt_of_le more fits
          have page := nextPage_eq under
          have table := nextTable_eq under
          split at again
          · obtain rfl := Sum.inl.inj again
            exact ⟨rfl, by simp only; omega⟩
          · next oldPte lookup =>
              obtain ⟨frame, i⟩ := oldPte
              split at again
              · next present =>
                  obtain ⟨result, copied, -⟩ := attempt_again again
                  have mapped : middle.translate oldPde start =
                      some (Entry.addr (middle.entry frame i)) := by
                    simp only [translate, lookup, Option.bind_some]
                    exact if_pos present
                  obtain ⟨small, elsewhere, taken⟩ := placed start above more _ mapped
                  exact absurd copied
                    (begun.copyMapped_fails (by omega) lookup present small elsewhere taken)
              · obtain rfl := Sum.inl.inj again
                exact ⟨rfl, by simp only; omega⟩
      · cases again

theorem Begun.copyPages_ok {oldPde vmmStart vmmEnd : Nat}
    (begun : pg.Begun pde oldPde blocks free fifo) (fits : vmmEnd ≤ 0xFFC00000)
    (placed : ∀ la, vmmStart ≤ la → la < vmmEnd → ∀ frame, pg.translate oldPde la = some frame →
      pg.Placed free la frame)
    (done : pg.copyPages fuel pde oldPde vmmStart vmmEnd = .ok after) : after = pg := by
  unfold copyPages at done
  cases ended : loop (copyPageRound pde oldPde vmmEnd) fuel (vmmStart, pg) with
  | none =>
      rw [ended] at done
      cases done
  | some result =>
      rw [ended] at done
      obtain rfl : result = .ok after := done
      obtain ⟨⟨start, last⟩, reached, left⟩ := loop_reached ended
      obtain ⟨rfl, -⟩ : last = pg ∧ vmmStart ≤ start := begun.reached fits placed reached
      simp only [copyPageRound] at left
      split at left
      · split at left
        · cases left
        · split at left
          · exact absurd left attempt_not_ok
          · cases left
      · cases left
        rfl

theorem createVma_malloc {list made : VmaList} {fields : VmaStruct}
    (done : pg.createVma nullIndex fuel heap list fields = .ok (made, after, later)) :
    ∃ addr, pg.malloc nullIndex fuel heap sizeofVma = .ok (after, later, addr) := by
  obtain ⟨⟨middle, chunks, addr⟩, served, linked⟩ := ok_of_bind done
  cases called : list.createVma fuel fields with
  | none =>
      simp only [called] at linked
      cases linked
  | some result =>
      simp only [called] at linked
      cases linked
      exact ⟨addr, served⟩

/-- A round of the loop over the VMAs that returns has been granted its chunk, and copies no
page. -/
theorem Begun.copyVma_ok {oldPde : Nat} {list made : VmaList} {fields : VmaStruct}
    (begun : pg.Begun pde oldPde blocks free fifo) (fits : fields.vmmEnd ≤ 0xFFC00000)
    (placed : ∀ la, fields.vmmStart ≤ la → la < fields.vmmEnd → ∀ frame,
      pg.translate oldPde la = some frame → pg.Placed free la frame)
    (done : pg.copyVma nullIndex fuel heap list pde oldPde fields = .ok (made, after, later)) :
    (∀ parent, pg.Grants heap parent sizeofVma) ∧
      (∃ addr, Settles .unfinished (fun fuel => pg.malloc nullIndex fuel heap sizeofVma)
        (after, later, addr)) ∧
      ∃ area more rest, after = { pg with area } ∧ after.Begun pde oldPde more rest fifo ∧
        ∀ r ∈ rest, r ∈ free := by
  obtain ⟨⟨_, middle, _⟩, created, ended⟩ := ok_of_bind done
  obtain ⟨last, pages, ended⟩ := ok_of_bind ended
  cases ended
  obtain ⟨addr, served⟩ := createVma_malloc created
  obtain ⟨granted, settles, area, more, rest, rfl, rings, fewer⟩ :=
    malloc_quiet begun.rings begun.quiet (by decide) served
  have kept := begun.withArea rings fewer
  have same := kept.copyPages_ok fits (fun la above under frame mapped => by
    obtain ⟨small, elsewhere, taken⟩ := placed la above under frame mapped
    exact ⟨small, elsewhere, fun p inRest => taken p (fewer p inRest)⟩) pages
  subst same
  exact ⟨granted, ⟨addr, settles⟩, area, more, rest, rfl, kept, fewer⟩

/-- The loop over the VMAs returns only if `malloc` was granted every time, and changes no
page. -/
theorem Begun.copyVmas_ok {parent : PagedMm} {oldPde rounds : Nat} {before rest : List Nat}
    {list : VmaList} {result : VmaList × Paging × Heap} (begun : pg.Begun pde oldPde blocks free fifo)
    (ring : old.nodes.IsRing .head ((before ++ rest).map .vma))
    (fits : ∀ v ∈ rest, (old.vmas v).vmmEnd ≤ 0xFFC00000)
    (placed : ∀ v ∈ rest, ∀ la, (old.vmas v).vmmStart ≤ la → la < (old.vmas v).vmmEnd →
      ∀ frame, pg.translate oldPde la = some frame → pg.Placed free la frame)
    (done : (loop (copyVmaRound nullIndex fuel old pde oldPde) rounds
      ((rest.map .vma).headD .head, list, pg, heap)).getD (.error .unfinished) = .ok result) :
    pg.GrantsVmas nullIndex heap parent rest.length ∧ result.2.1.memory = pg.memory := by
  induction rest generalizing before list pg heap blocks free rounds with
  | nil =>
      cases rounds with
      | zero => cases done
      | succ rounds =>
          cases done
          exact ⟨trivial, rfl⟩
  | cons v rest ih =>
      cases rounds with
      | zero => cases done
      | succ rounds =>
          have next : old.nodes.next (.vma v) = (rest.map VmaNode.vma).headD .head := by
            rw [List.map_append, List.map_cons] at ring
            exact ring.next_member
          rw [List.map_cons, List.headD_cons] at done
          cases round : pg.copyVma nullIndex fuel heap list pde oldPde (old.vmas v) with
          | error halt =>
              have left : copyVmaRound nullIndex fuel old pde oldPde (.vma v, list, pg, heap) =
                  .inr (.error halt) := by
                simp only [copyVmaRound, round, attempt]
              rw [loop_exit left] at done
              cases done
          | ok copied =>
              obtain ⟨made, middle, later⟩ := copied
              have again : copyVmaRound nullIndex fuel old pde oldPde (.vma v, list, pg, heap) =
                  .inl ((rest.map VmaNode.vma).headD .head, made, middle, later) := by
                simp only [copyVmaRound, round, attempt, next]
              rw [loop_next again] at done
              obtain ⟨granted, ⟨addr, settles⟩, area, more, remaining, rfl, kept, fewer⟩ :=
                begun.copyVma_ok (fits v List.mem_cons_self) (placed v List.mem_cons_self) round
              have whole : old.nodes.IsRing .head (((before ++ [v]) ++ rest).map .vma) := by
                simpa using ring
              obtain ⟨grants, memory⟩ := ih kept whole
                (fun w member => fits w (List.mem_cons_of_mem _ member))
                (fun w member la above under frame mapped => by
                  obtain ⟨small, elsewhere, taken⟩ :=
                    placed w (List.mem_cons_of_mem _ member) la above under frame mapped
                  exact ⟨small, elsewhere, fun p inRest => taken p (fewer p inRest)⟩) done
              refine ⟨⟨granted parent, ?_⟩, memory⟩
              intro more after final place called
              cases settles.unique called
              exact grants

end Pointers

end Present

section Exact

variable {old : PagedMm} {heap : Heap} {blocks more : List (Nat × Nat)} {free fifo order : List Nat}
  {area : FreeArea} {p nullIndex : Nat} {rest : List Nat}

theorem Forkable.inVma {v la : Nat} (forkable : pg.Forkable old blocks free fifo order)
    (member : v ∈ order) (above : (old.list.vmas v).vmmStart ≤ la)
    (under : la < (old.list.vmas v).vmmEnd) : old.InVma la :=
  ⟨v, forkable.ring.reached_iff.mpr (List.mem_cons_of_mem _ (List.mem_map_of_mem member)), above, under⟩

theorem Forkable.inVma_lt {la : Nat} (forkable : pg.Forkable old blocks free fifo order)
    (inside : old.InVma la) : la < 2 ^ 32 := by
  obtain ⟨v, reached, -, under⟩ := inside
  have member : v ∈ order := by simpa using forkable.ring.reached_iff.mp reached
  have fits := forkable.fits v member
  omega

theorem Ordinary.still (ordinary : pg.Ordinary old)
    (queue : pg.area.nodes.IsRing .vmFifo (fifo.map .page)) : pg.isVmmInited = false ∨ fifo = [] := by
  refine ordinary.quiet.imp id ?_
  intro none
  cases fifo with
  | nil => rfl
  | cons q rest =>
      rw [queue.next_head] at none
      cases none

/-- A page of the free list, as `OnFreeList` has it. -/
theorem Forkable.onFreeList (forkable : pg.Forkable old blocks free fifo order) (member : p ∈ free) :
    pg.OnFreeList (pg.base + p) :=
  ⟨p, rfl, forkable.rings.ring.reached_iff.mpr
    (List.mem_cons_of_mem _ (List.mem_map_of_mem member))⟩

/-- The loops begin with the copy of the directory. -/
theorem Forkable.begun (forkable : pg.Forkable old blocks free fifo order)
    (ordinary : pg.Ordinary old) (member : p ∈ free)
    (rings : PageState.Rings pg.count { area, blocks := more } rest fifo)
    (others : ∀ r ∈ rest, r ∈ free ∧ r ≠ p) :
    ({ pg with area }.withCopy (pg.base + p) old.directory).Begun (pg.base + p) old.directory
      more rest fifo := by
  have unneeded := forkable.unused p member
  have notDirectory : pg.base + p ≠ old.directory := fun here => unneeded (.inl here)
  have directory : ({ pg with area }.withCopy (pg.base + p) old.directory).memory old.directory =
      pg.memory old.directory := Function.update_of_ne notDirectory.symm _ _
  have refers : ∀ table, ({ pg with area }.withCopy (pg.base + p) old.directory).Refers old.directory table ↔
      pg.Refers old.directory table := by
    intro table
    simp only [Refers, entry, directory]
  constructor
  · rw [directory]
    exact Function.update_self _ _ _
  · exact notDirectory
  · intro table referred
    rw [refers] at referred
    exact ⟨fun here => ordinary.apart (here ▸ referred),
      fun here => unneeded (.inr (.inl (here ▸ referred)))⟩
  · exact ordinary.still forkable.rings.queue
  · exact rings
  · exact forkable.room
  · intro r inRest
    obtain ⟨inFree, different⟩ := others r inRest
    have unused := forkable.unused r inFree
    rw [refers]
    exact ⟨fun here => unused (.inl here), fun same => different (Nat.add_left_cancel same),
      fun referred => unused (.inr (.inl referred))⟩

theorem copyPage_ok {after : Paging} {cr3 dst src : Nat} (done : pg.copyPage cr3 dst src = .ok after) :
    ∃ source target, pg.translate cr3 src = some source ∧ pg.translate cr3 dst = some target ∧
      after = pg.withCopy target source := by
  unfold copyPage at done
  split at done
  · cases done
  · cases done
  · next source target fromSource toTarget =>
      cases done
      exact ⟨source, target, fromSource, toTarget, rfl⟩

theorem translate_memory {after : Paging} {directory la : Nat} (same : after.memory = pg.memory) :
    after.translate directory la = pg.translate directory la := by
  unfold translate lookupPte entry
  rw [same]

/-- The pages of the VMAs, when the directory has been copied. -/
theorem Forkable.placed {copied : Paging} {v la frame : Nat}
    (forkable : pg.Forkable old blocks free fifo order) (ordinary : pg.Ordinary old) (kept : Untouched pg copied old) (fewer : ∀ r ∈ rest, r ∈ free)
    (inOrder : v ∈ order) (above : (old.list.vmas v).vmmStart ≤ la)
    (under : la < (old.list.vmas v).vmmEnd) (mapped : copied.translate old.directory la = some frame) :
    copied.Placed rest la frame := by
  have inVma := forkable.inVma inOrder above under
  rw [kept.translate (forkable.inVma_lt inVma)] at mapped
  obtain ⟨⟨r, inPool, named⟩, elsewhere⟩ := ordinary.placed la frame inVma mapped
  have room := forkable.room
  refine ⟨by omega, elsewhere, ?_⟩
  intro q inRest same
  rw [kept.base] at same
  refine forkable.unused q (fewer q inRest) (.inr (.inr ⟨la, .inr inVma, forkable.inVma_lt inVma, ?_⟩))
  rw [same]
  exact mapped

/-- A child that still has the tables of the parent has no page of its own. -/
theorem Isolated.nonePresent {after : Paging} {child : PagedMm} (isolated : Isolated pg after old child)
    (same : ∀ la, old.InVma la →
      after.translate child.directory la = pg.translate old.directory la)
    (inside : ∀ la, old.InVma la → la < 2 ^ 32) : pg.NonePresent old := by
  intro la inVma
  cases mapped : pg.translate old.directory la with
  | none => rfl
  | some frame =>
      obtain ⟨copy, translated, foreign, -⟩ := isolated.copied la frame inVma mapped
      rw [same la inVma, mapped] at translated
      cases translated
      exact absurd ⟨la, .inr inVma, inside la inVma, mapped⟩ foreign

section Pointers

variable [Aliases]

/-- Where nothing is evicted, a parent is isolated only if `copy_mm` gets what it asks for and
meets no present page. -/
theorem Isolates.supplied (isolates : pg.Isolates nullIndex heap old)
    (forkable : pg.Forkable old blocks free fifo order) (ordinary : pg.Ordinary old) :
    pg.Supplied nullIndex heap old order.length ∧ pg.NonePresent old := by
  obtain ⟨fuel, finished⟩ := isolates.ends
  obtain ⟨child, after, final, returned, isolated⟩ := isolates.returns fuel finished
  have quiet := ordinary.still forkable.rings.queue
  obtain ⟨⟨middle, later, addr⟩, served, ended⟩ := ok_of_bind returned
  obtain ⟨granted, settles, area, blocks', free', rfl, rings, fewer⟩ :=
    malloc_quiet forkable.rings quiet (by decide) served
  obtain ⟨⟨found, taken⟩, allocated, ended⟩ := ok_of_bind ended
  cases found with
  | none => cases ended
  | some page =>
      obtain ⟨p, rest, last, member, first, rfl, rfl, stocked, left, others⟩ :=
        @alloc_quiet { pg with area } _ _ _ _ _ _ rings quiet allocated
      obtain ⟨copied, copying, ended⟩ := ok_of_bind ended
      obtain ⟨source, target, fromSource, toTarget, rfl⟩ := copyPage_ok copying
      obtain ⟨⟨list, made, heap'⟩, loops, result⟩ := ok_of_bind ended
      have inFree := fewer p member
      have below := forkable.rings.listed p inFree
      have room := forkable.room
      have narrow : pg.base + p < 2 ^ 20 := by omega
      obtain rfl := ordinary.physical source fromSource
      obtain rfl := ordinary.free _ target (forkable.onFreeList inFree) toTarget
      have within : ∀ r ∈ rest, r ∈ free ∧ r ≠ p :=
        fun r inRest => ⟨fewer r (others r inRest).1, (others r inRest).2⟩
      have begun := forkable.begun ordinary inFree left within
      have kept : Untouched pg ({ pg with area := last }.withCopy (pg.base + p) old.directory) old :=
        Untouched.withCopy ⟨rfl, rfl, rfl, fun _ _ => rfl, _, rest, fifo, left,
          fun r inRest => forkable.unused r (within r inRest).1⟩ (forkable.unused p inFree)
      have place : PagedMm.directory { old with
          list := { old.list with nodes := listInit old.list.nodes .head }
          pde := pgToAddrPa (pg.base + p) } = pg.base + p := pgToAddrPa_frame narrow
      have loops : (loop (copyVmaRound nullIndex fuel old.list (PagedMm.directory { old with
          list := { old.list with nodes := listInit old.list.nodes .head }
          pde := pgToAddrPa (pg.base + p) }) old.directory) fuel (old.list.nodes.next .head,
            { old.list with nodes := listInit old.list.nodes .head },
            { pg with area := last }.withCopy (pg.base + p) old.directory, later)).getD
          (.error .unfinished) = .ok (list, made, heap') := loops
      rw [place, forkable.ring.next_head] at loops
      obtain ⟨grants, memory⟩ := @Begun.copyVmas_ok _ _ _ _ _ _ _ _ _ _ old _ _ [] _ _ _ begun
        forkable.ring forkable.fits (fun v inOrder la above under frame mapped =>
          forkable.placed ordinary kept (fun r inRest => (within r inRest).1) inOrder above under mapped)
        loops
      refine ⟨⟨granted old, ?_⟩, ?_⟩
      · intro more middle rest' addr' called
        cases settles.unique called
        refine ⟨stocked.spares rings.queue quiet, ⟨fromSource, ?_⟩, ?_⟩
        · intro q next
          cases first.symm.trans next
          exact toTarget
        · intro page' taken called
          cases allocated.symm.trans called
          exact grants
      · cases result
        refine isolated.nonePresent (fun la inVma => ?_) fun la inVma => forkable.inVma_lt inVma
        rw [translate_memory memory]
        change Paging.translate _ (PagedMm.directory { list, pde := pgToAddrPa (pg.base + p) }) la = _
        have child : PagedMm.directory { list, pde := pgToAddrPa (pg.base + p) } = pg.base + p :=
          pgToAddrPa_frame narrow
        rw [child, translate_same begun.same, kept.translate (forkable.inVma_lt inVma)]

/-- `copy_mm` isolates the parent if its calls of `malloc` and `alloc_page` are served with
what the parent does not need, if it finds both directories, and if it meets no present page.
Where nothing is evicted it does so only then. -/
theorem Forkable.isolates_iff (forkable : pg.Forkable old blocks free fifo order) :
    (pg.Supplied nullIndex heap old order.length ∧ pg.NonePresent old →
      pg.Isolates nullIndex heap old) ∧
    (pg.Ordinary old →
      (pg.Isolates nullIndex heap old ↔
        pg.Supplied nullIndex heap old order.length ∧ pg.NonePresent old)) := by
  refine ⟨fun enough => forkable.isolates enough.1 enough.2, ?_⟩
  intro ordinary
  exact ⟨fun isolates => isolates.supplied forkable ordinary,
    fun enough => forkable.isolates enough.1 enough.2⟩

end Pointers

/-- The same with the two pointers of a page told apart. -/
theorem fork_isolation (forkable : pg.Forkable old blocks free fifo order) :
    (@Supplied .apart nullIndex pg heap old order.length ∧ pg.NonePresent old →
      @Isolates .apart nullIndex pg heap old) ∧
    (pg.Ordinary old →
      (@Isolates .apart nullIndex pg heap old ↔
        @Supplied .apart nullIndex pg heap old order.length ∧ pg.NonePresent old)) :=
  @Forkable.isolates_iff _ _ _ _ _ _ _ _ .apart forkable

end Exact

/-- A parent of which no page has been touched yet. -/
def untouchedMm : PagedMm :=
  { list := VmaList.oneVma { vmmStart := 0x400000, vmmEnd := 0x402000, flags := 7 }, pde := pageSize }

theorem bootPages_entry (i : Nat) :
    bootPages.entry 1 i = if i = 768 then 0x2003 else if i = 0 then 0x2003 else 0 := by
  show ((Bytes.zero.setWord 0 0x2003).setWord 768 0x2003).word i = _
  split
  · next kernel => rw [kernel, Bytes.word_setWord_self (by decide)]
  · next other =>
      rw [Bytes.word_setWord_of_ne other]
      split
      · next low => rw [low, Bytes.word_setWord_self (by decide)]
      · next elsewhere => rw [Bytes.word_setWord_of_ne elsewhere, Bytes.word_zero]

theorem bootPages_user {la : Nat} (user : UserPage (la / pageSize)) :
    bootPages.translate 1 la = none := by
  have index : la / 2 ^ 22 ≠ 768 ∧ la / 2 ^ 22 ≠ 0 := by
    simp only [UserPage, pageSize] at user
    omega
  have missing : ¬ Entry.Present (bootPages.entry 1 (la / 2 ^ 22)) := by
    rw [bootPages_entry, if_neg index.1, if_neg index.2]
    exact Entry.not_present_zero
  rw [translate, lookupPte, if_neg missing, Option.bind_none]

theorem untouchedMm_user {la : Nat} (inside : untouchedMm.InVma la) : UserPage (la / pageSize) := by
  obtain ⟨v, reached, above, under⟩ := inside
  have zero : v = 0 := by simpa using VmaList.oneVma_ring.reached_iff.mp reached
  subst zero
  have above : 0x400000 ≤ la := above
  have under : la < 0x402000 := under
  simp only [UserPage, pageSize]
  omega

theorem bootPages_forkable : bootPages.Forkable untouchedMm [] (List.range' 0 4) [] [0] := by
  refine ⟨(PageState.Queues.init (.init { next := id, prev := id })).rings, VmaList.oneVma_ring,
    by simp, ?_, by decide, by decide, ?_⟩
  · intro v member
    have zero : v = 0 := by simpa using member
    subst zero
    decide
  · intro p member
    have small : p < 4 := by simpa using member
    rintro (directory | ⟨i, -, present, table⟩ | ⟨la, user | inside, -, mapped⟩)
    · change 16 + p = 1 at directory
      omega
    · change Entry.Present (bootPages.entry 1 i) at present
      change Entry.addr (bootPages.entry 1 i) = 16 + p at table
      rw [bootPages_entry] at present table
      split at table
      · have two : (2 : Nat) = 16 + p := table
        omega
      · split at table
        · have two : (2 : Nat) = 16 + p := table
          omega
        · next other low =>
            rw [if_neg other, if_neg low] at present
            exact Entry.not_present_zero present
    · exact absurd (mapped.symm.trans (bootPages_user user)) (by simp)
    · exact absurd (mapped.symm.trans (bootPages_user (untouchedMm_user inside))) (by simp)

theorem Spares.of_empty {first : Nat} (many : 1 ≤ pg.area.freePageNum)
    (head : pg.area.nodes.next .head = .page first) (large : 1 ≤ pg.area.freePages first)
    (none : pg.area.nodes.next .vmFifo = .vmFifo) (old : PagedMm) : pg.Spares old := by
  refine ⟨⟨many, first, head, large⟩, ?_⟩
  intro q _ here
  rw [none] at here
  cases here

/-- The first `malloc` takes a page for its chunk, and the other the rest of that page. -/
theorem fork_isolation_untouched :
    @Isolates .apart nullBelow bootPages HeapState.emptyHeap.heap untouchedMm := by
  have empty : bootPages.Spares untouchedMm :=
    .of_empty (by decide +kernel) (show _ = PageNode.page 0 by decide +kernel) (by decide +kernel)
      (by decide +kernel) _
  have run : (@malloc .apart nullBelow 1 bootPages HeapState.emptyHeap.heap sizeofMm).toOption.any
      fun result => decide (1 ≤ result.1.area.freePageNum ∧
        result.1.area.nodes.next .head = .page 1 ∧ 1 ≤ result.1.area.freePages 1 ∧
        result.1.area.nodes.next .vmFifo = .vmFifo ∧ result.1.translate 1 pageSize = some 1 ∧
        result.1.base = 16 ∧ result.1.translate 1 (pgToAddrPa 17) = some 17 ∧
        result.2.1.search 3 (chunkSize + sizeofVma) = some (some 0xC0010028)) := by
    decide +kernel
  obtain ⟨⟨middle, later, addr⟩, result, facts⟩ := (Option.any_eq_true _ _).mp run
  have done := ok_of_toOption result
  obtain ⟨many, head, large, queue, parent, base, child, fits⟩ := of_decide_eq_true facts
  have searched : HeapState.emptyHeap.heap.search 1 ((chunkSize + sizeofMm) % 2 ^ 32) = some none := by
    decide +kernel
  refine (fork_isolation bootPages_forkable).1 ⟨⟨⟨1, none, searched, fun _ => empty⟩, ?_⟩, ?_⟩
  · intro fuel middle' later' addr' called
    cases (@malloc_settles _ _ _ _ _ .apart _ _ searched done).unique called
    refine ⟨.of_empty many head large queue _, ⟨parent, ?_⟩, ?_⟩
    · intro p next
      cases head.symm.trans next
      rw [base]
      exact child
    · intro page after _
      exact ⟨.of_chunk fits, fun _ _ _ _ _ => trivial⟩
  · intro la inside
    exact bootPages_user (untouchedMm_user inside)

/-- A program whose code page is mapped where the kernel has it, as `execve` leaves it.  Four
more pages are free. -/
def programPages : Paging :=
  let area := FreeArea.pageInit { next := id, prev := id } 5
  let area := { area with nodes := listInit area.nodes .vmFifo }
  { bootPages with
    memory := fun frame =>
      if frame = 2 then (bootPages.memory 2).setWord 20 0x14003 else bootPages.memory frame
    area := ((area.allocPage 6 1).map Prod.snd).getD area
    count := 5 }

def programMm : PagedMm :=
  { list := VmaList.oneVma { vmmStart := 0xC0010000, vmmEnd := 0xC0011000, flags := 7 }, pde := pageSize }

/-- The program forks, and its code page is referred to once less than before. -/
theorem forked_program_loses_reference :
    ∃ child after later,
      @copyMm .apart nullBelow 4 programPages HeapState.emptyHeap.heap programMm =
        .ok (child, after, later) ∧
      programPages.ParentFrame programMm 16 ∧ after.ref 16 = programPages.ref 16 - 1 ∧
      ¬ @Isolates .apart nullBelow programPages HeapState.emptyHeap.heap programMm := by
  have run : (@copyMm .apart nullBelow 4 programPages HeapState.emptyHeap.heap programMm).toOption.any
      fun result => result.2.1.ref 16 = -1 := by
    decide +kernel
  obtain ⟨⟨child, after, later⟩, result, counted⟩ := (Option.any_eq_true _ _).mp run
  have returned := ok_of_toOption result
  have counted : after.ref 16 = -1 := of_decide_eq_true counted
  have parent : programPages.ParentFrame programMm 16 := by
    refine ⟨0xC0010000, .inr ⟨0, ⟨1, rfl⟩, by decide, by decide⟩, by decide, by decide +kernel⟩
  refine ⟨child, after, later, returned, parent, counted, ?_⟩
  intro isolates
  obtain ⟨child', after', later', again, isolated⟩ := @Isolates.returns .apart _ _ _ _ isolates 4 (by
    rw [returned]
    exact fun same => nomatch same)
  rw [returned] at again
  cases again
  have same := isolated.refs 16 parent
  rw [counted] at same
  exact absurd same (by decide)

end Paging

end WindOs.Mm
