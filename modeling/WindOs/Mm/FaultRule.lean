import WindOs.Mm.Virtual

namespace WindOs.Mm

open Data

/-! # What a page fault keeps

A fault allocates at most two pages, one for a table and one for the page itself.  An
invariant that stands an allocation, a new table and a new page stands a fault.
-/

namespace Paging

open VmState

variable {pg after : Paging} {blocks : List (Nat × Nat)} {frame k v la sign : Nat}

section Rules

variable [Aliases]

/-- The number of an invariant says how many calls of `alloc_page(1)` it allows for;
`Holds` is what it is while a new page is in nobody's hands but the caller's. -/
structure Discipline (Inv : Nat → Paging → List (Nat × Nat) → Prop)
    (Holds : Nat → Paging → List (Nat × Nat) → Nat → Prop) : Prop where
  fewer : ∀ {k pg blocks}, Inv (k + 1) pg blocks → Inv k pg blocks
  searched : ∀ {k pg blocks} (mm : VmaList), Inv k pg blocks → Inv k { pg with mm } blocks
  allocated : ∀ {k pg blocks frame after}, Inv (k + 1) pg blocks →
    pg.allocPage 1 = .ok (some frame, after) →
    ∃ p, frame = after.base + p ∧ Holds k after blocks p ∧ Settled pg after ∧
      after.NotTable frame ∧ frame < 2 ^ 20
  newTable : ∀ {k pg blocks p i}, Holds k pg blocks p → UserTable i → ¬ pg.HasTable i →
    Inv k (pg.newTable pg.pde i (pg.base + p)) blocks
  installed : ∀ {k pg blocks p v sign bytes}, Holds k pg blocks p → UserPage v →
    pg.HasTable (v / 2 ^ 10) → ¬ Entry.Present (pg.pte v) → sign % 2 = 1 →
    Inv 0 (pg.installed v (pg.base + p) sign bytes
      (Function.update pg.ref (pg.base + p) (pg.ref (pg.base + p) + 1))) blocks

/-- How many pages `get_pte(mm->pde, la, 1)` allocates. -/
def tableCost (pg : Paging) (v : Nat) : Nat := if pg.HasTable (v / 2 ^ 10) then 0 else 1

/-- The rounds of `swap_out`: `begin` is the last of `front`, and steps over the page
behind the one that is evicted. -/
theorem swapOut_rounds {Inv : Nat → List Nat → List Nat → Paging → Prop} {n fuel : Nat}
    {front back : List Nat}
    (ring : ∀ {n front back pg}, Inv n front back pg →
      pg.area.nodes.IsRing .vmFifo ((front ++ back).map .page))
    (wrapped : ∀ {n front p pg after}, Inv (n + 1) front [p] pg →
      pg.evict (pg.base + p) = .ok after → Inv n [] front after)
    (stepped : ∀ {n front p q back pg after}, Inv (n + 1) front (p :: q :: back) pg →
      pg.evict (pg.base + p) = .ok after → Inv n (front ++ [q]) back after)
    (inv : Inv n front back pg)
    (done : loop swapOutRound fuel ((front.map PageNode.page).getLastD .vmFifo, n, pg) =
      some (.ok after)) :
    ∃ n front back, Inv n front back after := by
  induction fuel generalizing n front back pg with
  | zero => cases done
  | succ fuel ih =>
      have begins := ring inv
      rw [List.map_append] at begins
      have next := begins.next_last
      cases n with
      | zero =>
          have ended : swapOutRound ((front.map PageNode.page).getLastD .vmFifo, 0, pg) =
              .inr (.ok pg) := by
            cases back <;> simp only [swapOutRound, next, List.map_nil, List.map_cons,
              List.headD_nil, List.headD_cons]
          rw [loop_exit ended] at done
          cases done
          exact ⟨_, _, _, inv⟩
      | succ n =>
          cases back with
          | nil =>
              have ended : swapOutRound ((front.map PageNode.page).getLastD .vmFifo, n + 1, pg) =
                  .inr (.ok pg) := by
                simp only [swapOutRound, next, List.map_nil, List.headD_nil]
              rw [loop_exit ended] at done
              cases done
              exact ⟨_, _, _, inv⟩
          | cons p back =>
              cases evicted : pg.evict (pg.base + p) with
              | error halt =>
                  have ended : swapOutRound ((front.map PageNode.page).getLastD .vmFifo, n + 1, pg) =
                      .inr (.error halt) := by
                    simp only [swapOutRound, next, List.map_cons, List.headD_cons, evicted, attempt]
                  rw [loop_exit ended] at done
                  cases done
              | ok middle =>
                  have round : swapOutRound ((front.map PageNode.page).getLastD .vmFifo, n + 1, pg) =
                      .inl (middle.area.nodes.next ((front.map PageNode.page).getLastD .vmFifo), n,
                        middle) := by
                    simp only [swapOutRound, next, List.map_cons, List.headD_cons, evicted, attempt]
                  rw [loop_next round] at done
                  cases back with
                  | nil =>
                      have kept := wrapped inv evicted
                      have whole : middle.area.nodes.IsRing .vmFifo (front.map .page ++ []) := by
                        simpa using ring kept
                      rw [whole.next_last] at done
                      exact ih kept done
                  | cons q back =>
                      have kept := stepped inv evicted
                      have whole : middle.area.nodes.IsRing .vmFifo
                          (front.map .page ++ (q :: back).map .page) := by
                        simpa using ring kept
                      rw [whole.next_last] at done
                      refine ih kept ?_
                      simpa using done

namespace Discipline

variable {Inv : Nat → Paging → List (Nat × Nat) → Prop}
  {Holds : Nat → Paging → List (Nat × Nat) → Nat → Prop}

theorem none_left (rule : Discipline Inv Holds) (inv : Inv k pg blocks) : Inv 0 pg blocks := by
  induction k with
  | zero => exact inv
  | succ k ih => exact ih (rule.fewer inv)

theorem getPte {pte : Option (Nat × Nat)} (rule : Discipline Inv Holds)
    (inv : Inv (k + pg.tableCost v) pg blocks) (user : UserPage v) (here : la / 2 ^ 12 = v)
    (done : pg.getPte allocOne pg.pde la = .ok (pte, after)) :
    pte = none ∧ after = pg ∨
      Inv k after blocks ∧ after.HasTable (v / 2 ^ 10) ∧
        pte = some (after.table (v / 2 ^ 10), v % 2 ^ 10) ∧
        (after.pde = pg.pde ∧ after.base = pg.base ∧ after.count = pg.count) ∧
        (after = pg ∨ ¬ pg.HasTable (v / 2 ^ 10) ∧ ¬ Entry.Present (after.pte v)) := by
  rcases getPte_ok done here with ⟨has, named, rfl⟩ | ⟨-, named, refused⟩ |
      ⟨missing, frame, middle, allocated, rfl, named⟩
  · rw [tableCost, if_pos has] at inv
    exact .inr ⟨inv, has, named, ⟨rfl, rfl, rfl⟩, .inl rfl⟩
  · exact .inl ⟨named, allocPage_none refused⟩
  · rw [tableCost, if_neg missing] at inv
    obtain ⟨p, rfl, kept, settled, notTable, narrow⟩ := rule.allocated inv allocated
    rw [← settled.pde] at named ⊢
    have missingMiddle : ¬ middle.HasTable (v / 2 ^ 10) := fun has => missing (settled.tables.1.mp has)
    have entry := @newTable_entry middle (middle.base + p) (v / 2 ^ 10) notTable.1 narrow
    refine .inr ⟨rule.newTable kept user.table missingMiddle, entry.1, named,
      ⟨rfl, settled.base, settled.count⟩, .inr ⟨missing, ?_⟩⟩
    rw [pte_of_table entry.1, entry.2, newTable_zero notTable.1]
    exact Entry.not_present_zero

theorem touch (rule : Discipline Inv Holds) (inv : Inv 1 pg blocks) (user : UserPage v)
    (has : pg.HasTable (v / 2 ^ 10)) (absent : ¬ Entry.Present (pg.pte v)) (odd : sign % 2 = 1)
    (done : pg.touch allocOne (pageSize * v) sign = .ok after) : Inv 0 after blocks := by
  have called := done
  unfold Paging.touch at called
  obtain ⟨⟨found, middle⟩, allocated, ended⟩ := ok_of_bind called
  cases found with
  | none =>
      cases ended
      rw [allocPage_none allocated]
      exact rule.none_left inv
  | some frame =>
      obtain ⟨p, rfl, kept, settled, -⟩ := rule.allocated inv allocated
      have hasMiddle := settled.tables.1.mpr has
      have absentMiddle := settled.absent v absent
      rw [touch_eq allocated hasMiddle absentMiddle] at done
      obtain ⟨_, -, done⟩ := ok_of_bind done
      cases done
      exact rule.installed kept user hasMiddle absentMiddle odd

theorem swapIn (rule : Discipline Inv Holds) (inv : Inv 1 pg blocks) (user : UserPage v)
    (absent : ¬ Entry.Present (pg.pte v))
    (done : pg.swapIn allocOne (pageSize * v) = .ok after) : Inv 0 after blocks := by
  have called := done
  unfold Paging.swapIn at called
  obtain ⟨⟨found, middle⟩, allocated, ended⟩ := ok_of_bind called
  cases found with
  | none => cases ended
  | some frame =>
      by_cases has : pg.HasTable (v / 2 ^ 10)
      · obtain ⟨p, rfl, kept, settled, notTable, -⟩ := rule.allocated inv allocated
        have hasMiddle := settled.tables.1.mpr has
        have absentMiddle := settled.absent v absent
        rw [swapIn_eq has allocated notTable.1
          (fun _ => Mapping.load_pte notTable (user_small user)) ⟨hasMiddle, settled.tables.2⟩
          absentMiddle] at done
        obtain ⟨_, -, done⟩ := ok_of_bind done
        cases done
        exact rule.installed kept user hasMiddle absentMiddle (by decide)
      · rw [lookupPte_of_missing has page_of_la] at ended
        cases ended

theorem bindPage (rule : Discipline Inv Holds) (inv : Inv (1 + pg.tableCost v) pg blocks)
    (user : UserPage v) (absent : ¬ Entry.Present (pg.pte v)) (odd : sign % 2 = 1)
    (done : pg.bindPage allocOne (pageSize * v) sign = .ok after) : Inv 0 after blocks := by
  unfold Paging.bindPage at done
  obtain ⟨⟨pte, middle⟩, got, ended⟩ := ok_of_bind done
  rcases rule.getPte inv user page_of_la got with ⟨rfl, -⟩ | ⟨kept, has, rfl, -, untouched⟩
  · cases ended
  · have absentMiddle : ¬ Entry.Present (middle.pte v) := by
      rcases untouched with rfl | ⟨-, new⟩
      · exact absent
      · exact new
    change (if _ ∧ _ then middle.touch allocOne (pageSize * v) sign
      else middle.swapIn allocOne (pageSize * v)) = _ at ended
    split at ended
    · exact rule.touch kept user has absentMiddle odd ended
    · exact rule.swapIn kept user absentMiddle ended

/-- A page fault at a user page that is not present. -/
theorem doSwap {cr2 : Nat} {isWrite : Bool} (rule : Discipline Inv Holds)
    (inv : Inv (1 + pg.tableCost (cr2 / pageSize)) pg blocks) (user : UserPage (cr2 / pageSize))
    (absent : ¬ Entry.Present (pg.pte (cr2 / pageSize)))
    (done : pg.doSwap allocOne cr2 isWrite = .ok after) : Inv 0 after blocks := by
  have start : cr2 - cr2 % pageSize = pageSize * (cr2 / pageSize) := by
    have split := Nat.div_add_mod cr2 pageSize
    omega
  unfold Paging.doSwap at done
  simp only [start] at done
  split at done
  · cases done
  · cases done
  · rename_i vma mm found
    split at done
    · cases done
    · split at done
      · cases done
      · have odd : (if (mm.vmas vma).flags &&& 0x2 = 1 then 0x7 else 0x5) % 2 = 1 := by
          split <;> rfl
        exact rule.bindPage (rule.searched mm inv) user absent odd done

end Discipline

end Rules

end Paging

end WindOs.Mm
