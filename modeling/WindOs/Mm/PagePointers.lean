import WindOs.Mm.PageAlloc

namespace WindOs.Mm

open Data

/-! # The two pointers of a page

Every `struct Page` can be reached by two pointers, its physical address and the same
address raised by `VERTUAL_MEM`.  `alloc_page` returns the raised one, and `free_page`
compares whatever it is given.
-/

structure PagePtr where
  page : Nat
  raised : Bool
deriving DecidableEq, Repr

namespace PagePtr

/-- `>` on addresses.  The pages lie below `VERTUAL_MEM`, so a raised pointer is above
every physical one. -/
def Above (a b : PagePtr) : Prop :=
  if a.raised = b.raised then a.page > b.page else a.raised = true

instance (a b : PagePtr) : Decidable (a.Above b) :=
  inferInstanceAs (Decidable (if a.raised = b.raised then a.page > b.page else a.raised = true))

def plus (a : PagePtr) (i : Nat) : PagePtr :=
  { a with page := a.page + i }

end PagePtr

namespace FreeArea

/-- The pointer by which a page of the list is linked. -/
def ptr (area : FreeArea) (p : Nat) : PagePtr := { page := p, raised := area.raised p }

/-- One round of the search of `free_page`, which compares the pointers that are stored. -/
def visitPtr (area : FreeArea) (page : PagePtr) : PageNode → Option Nat → Option Nat ⊕ Option Nat
  | .page p, _ => if (area.ptr p).Above page then .inr (some p) else .inl (some p)
  | _, target => .inr target

/-- The block is merged with that behind it if they were given by pointers of one kind. -/
def mergeDownPtr (area : FreeArea) (page : PagePtr) (n target : Nat) : FreeArea :=
  if page.raised = area.raised target then area.mergeDown page.page n target else area

def mergeUpPtr (area : FreeArea) (page : PagePtr) : FreeArea :=
  match area.nodes.prev (.page page.page) with
  | .page target => if area.raised target = page.raised then area.mergeUp page.page else area
  | _ => area

/-- `free_page` with the pointers told apart. -/
def freePtr (fuel : Nat) (area : FreeArea) (page : PagePtr) (n : Nat) : Option FreeArea :=
  (loop (walk area.nodes .head (area.visitPtr page) id) fuel (area.nodes.next .head, none)).map
    fun found =>
      match found with
      | none => area
      | some target =>
          let area := { area with
            nodes := insertPages area.nodes (.page target) page.page n
            flags := Function.update area.flags page.page 0
            freePages := Function.update area.freePages page.page n
            freePageNum := area.freePageNum + n
            raised := fun p =>
              if page.page ≤ p ∧ p < page.page + n then page.raised else area.raised p }
          (area.mergeDownPtr page n target).mergeUpPtr page

variable {area after : FreeArea} {page : PagePtr} {list : List Nat} {n p target fuel : Nat}

theorem mergeDown_raised : (area.mergeDown p n target).raised = area.raised := by
  unfold mergeDown
  split <;> rfl

theorem mergeUp_raised : (area.mergeUp p).raised = area.raised := by
  unfold mergeUp
  split
  · split <;> rfl
  · rfl

theorem freePage_raised (done : area.freePage fuel p n = some after) :
    after.raised = area.raised := by
  obtain ⟨found, -, rfl⟩ := Option.map_eq_some_iff.mp done
  cases found with
  | none => rfl
  | some target => exact mergeUp_raised.trans mergeDown_raised

theorem setPage_raised {node : PageNode} {freePages flags : Nat} :
    (area.setPage node freePages flags).raised = area.raised := by
  cases node <;> rfl

theorem allocPage_raised {result : Option Nat × FreeArea}
    (done : area.allocPage fuel n = some result) : result.2.raised = area.raised := by
  unfold allocPage at done
  split at done
  · cases done
    rfl
  · obtain ⟨found, -, rfl⟩ := Option.map_eq_some_iff.mp done
    cases found with
    | none => rfl
    | some p => exact setPage_raised

theorem mergeDownPtr_raised : (area.mergeDownPtr page n target).raised = area.raised := by
  unfold mergeDownPtr
  split
  · exact mergeDown_raised
  · rfl

theorem mergeUpPtr_raised : (area.mergeUpPtr page).raised = area.raised := by
  unfold mergeUpPtr
  split
  · split
    · exact mergeUp_raised
    · rfl
  · rfl

/-- Only the pages that are given back change their pointers. -/
theorem freePtr_raised {q : Nat} (done : area.freePtr fuel page n = some after)
    (outside : ¬ (page.page ≤ q ∧ q < page.page + n)) : after.raised q = area.raised q := by
  obtain ⟨found, -, rfl⟩ := Option.map_eq_some_iff.mp done
  cases found with
  | none => rfl
  | some target =>
      simp only [mergeUpPtr_raised, mergeDownPtr_raised]
      exact if_neg outside

theorem mergeDownPtr_physical (low : ∀ p, area.raised p = false) :
    area.mergeDownPtr ⟨p, false⟩ n target = area.mergeDown p n target :=
  if_pos (low target).symm

theorem mergeUpPtr_physical (low : ∀ p, area.raised p = false) :
    area.mergeUpPtr ⟨p, false⟩ = area.mergeUp p := by
  unfold mergeUpPtr
  cases before : area.nodes.prev (.page p) with
  | page target => simp only [low, if_true]
  | head => simp only [before, mergeUp]
  | vmFifo => simp only [before, mergeUp]

/-- A list without raised pointers, to which a physical one is given, is the list of indices. -/
theorem freePtr_physical (low : ∀ p, area.raised p = false) :
    area.freePtr fuel ⟨p, false⟩ n = area.freePage fuel p n := by
  have visits : area.visitPtr ⟨p, false⟩ = visitTarget p := by
    funext node target
    cases node <;> simp [visitPtr, visitTarget, ptr, low, PagePtr.Above]
  unfold freePtr freePage
  rw [visits]
  congr 1
  funext found
  cases found with
  | none => rfl
  | some target =>
      have kept : (fun q => if p ≤ q ∧ q < p + n then false else area.raised q) = area.raised := by
        funext q
        rw [low q, ite_self]
      simp only [kept]
      rw [mergeDownPtr_physical, mergeUpPtr_physical]
      · intro q
        rw [mergeDown_raised]
        exact low q
      · exact low

theorem mergeDownPtr_nodes : (area.mergeDownPtr page n target).nodes = area.nodes := by
  unfold mergeDownPtr
  split
  · exact mergeDown_nodes
  · rfl

theorem mergeUpPtr_nodes : (area.mergeUpPtr page).nodes = area.nodes := by
  unfold mergeUpPtr
  split
  · split
    · exact mergeUp_nodes
    · rfl
  · rfl

/-- A search that passes every page on ends at one of them, if there is one. -/
theorem scan_target {visit : PageNode → Option Nat → Option Nat ⊕ Option Nat}
    (visits : ∀ p acc, visit (.page p) acc = .inl (some p) ∨ visit (.page p) acc = .inr (some p))
    (nonempty : list ≠ []) (acc : Option Nat) :
    ∃ front target back, list = front ++ target :: back ∧
      scan visit id (list.map .page) acc = some target := by
  induction list generalizing acc with
  | nil => contradiction
  | cons q rest ih =>
      rcases visits q acc with passed | stopped
      · by_cases last : rest = []
        · refine ⟨[], q, [], by rw [last]; rfl, ?_⟩
          simp [scan, passed, last]
        · obtain ⟨front, target, back, split, found⟩ := ih last (some q)
          refine ⟨q :: front, target, back, by rw [split]; rfl, ?_⟩
          simp only [List.map_cons, scan, passed]
          exact found
      · refine ⟨[], q, rest, rfl, ?_⟩
        simp only [List.map_cons, scan, stopped]

/-- A block is put in front of a page of the list, or nothing is done to an empty list. -/
structure Inserts (area after : FreeArea) (list : List Nat) (page n : Nat) (listed : List Nat) :
    Prop where
  ring : after.nodes.IsRing .head (listed.map .page)
  agree : area.nodes.AgreeOff after.nodes (.head :: listed.map .page)
  members : ∀ q, q ∈ listed ↔ list ≠ [] ∧ (q ∈ list ∨ page ≤ q ∧ q < page + n)

theorem inserts_none (ring : area.nodes.IsRing .head ([].map .page)) : Inserts area area [] p n [] :=
  ⟨ring, .refl _ _, by simp⟩

theorem inserts_some {front back : List Nat}
    (ring : area.nodes.IsRing .head ((front ++ target :: back).map .page))
    (fresh : ∀ i < n, p + i ∉ front ++ target :: back)
    (nodes : after.nodes = insertPages area.nodes (.page target) p n) :
    Inserts area after (front ++ target :: back) p n
      (front ++ (List.range' p n ++ target :: back)) := by
  constructor
  · rw [nodes]
    exact insertPages_ring ring fresh
  · rw [nodes]
    exact insertPages_agreeOff ring fresh
  · intro q
    simp only [List.mem_append, List.mem_range'_1, List.mem_cons, ne_eq, List.append_eq_nil_iff,
      reduceCtorEq, and_false, not_false_eq_true, true_and]
    tauto

theorem freePage_inserts (ring : area.nodes.IsRing .head (list.map .page))
    (enough : list.length < fuel) (fresh : ∀ i < n, p + i ∉ list) :
    ∃ after listed, area.freePage fuel p n = some after ∧ Inserts area after list p n listed := by
  have search := @loop_walk_ring _ _ _ _ _ (visitTarget p) id _ _ ring none fuel (by simpa using enough)
  by_cases empty : list = []
  · subst empty
    refine ⟨area, [], ?_, inserts_none ring⟩
    rw [freePage, search]
    rfl
  · obtain ⟨front, target, back, rfl, found⟩ := @scan_target list (visitTarget p) (fun q acc => by
      by_cases above : q > p
      · exact .inr (if_pos above)
      · exact .inl (if_neg above)) empty none
    rw [found] at search
    refine ⟨_, _, by rw [freePage, search]; rfl, inserts_some ring fresh ?_⟩
    rw [mergeUp_nodes, mergeDown_nodes]

theorem visitPtr_page (s : Nat) (acc : Option Nat) :
    area.visitPtr page (.page s) acc = .inl (some s) ∨
      area.visitPtr page (.page s) acc = .inr (some s) := by
  by_cases above : (area.ptr s).Above page
  · exact .inr (if_pos above)
  · exact .inl (if_neg above)

theorem freePtr_inserts (ring : area.nodes.IsRing .head (list.map .page))
    (enough : list.length < fuel) (fresh : ∀ i < n, page.page + i ∉ list) :
    ∃ after listed, area.freePtr fuel page n = some after ∧
      Inserts area after list page.page n listed := by
  have search := @loop_walk_ring _ _ _ _ _ (area.visitPtr page) id _ _ ring none fuel
    (by simpa using enough)
  by_cases empty : list = []
  · subst empty
    refine ⟨area, [], ?_, inserts_none ring⟩
    rw [freePtr, search]
    rfl
  · obtain ⟨front, target, back, rfl, found⟩ := scan_target (@visitPtr_page area page) empty none
    rw [found] at search
    refine ⟨_, _, by rw [freePtr, search]; rfl, inserts_some ring fresh ?_⟩
    rw [mergeUpPtr_nodes, mergeDownPtr_nodes]

/-- A page that is given by its raised pointer goes in front of the first page of the list only if
that one is raised as well or is the last. -/
theorem freePtr_first {q r : Nat} (ring : area.nodes.IsRing .head ((q :: list).map .page))
    (enough : list.length + 1 < fuel) (fresh : p ∉ q :: list)
    (done : area.freePtr fuel ⟨p, true⟩ 1 = some after) (first : after.nodes.next .head = .page r) :
    after.raised r = (area.raised q || list.isEmpty) := by
  have search := @loop_walk_ring _ _ _ _ _ (area.visitPtr ⟨p, true⟩) id _ _ ring none fuel
    (by simpa using enough)
  obtain ⟨front, target, back, split, hit⟩ :=
    scan_target (@visitPtr_page area ⟨p, true⟩) (List.cons_ne_nil q list) none
  obtain ⟨found, searched, rfl⟩ := Option.map_eq_some_iff.mp done
  rw [hit] at search
  cases search.symm.trans searched
  simp only [mergeUpPtr_nodes, mergeDownPtr_nodes] at first
  simp only [mergeUpPtr_raised, mergeDownPtr_raised]
  have linked : area.nodes.IsRing .head ((front ++ target :: back).map .page) := split ▸ ring
  have inserted := insertPages_ring linked (fun i (small : i < 1) => by
    rw [← split, Nat.lt_one_iff.mp small]
    exact fresh)
  cases front with
  | nil =>
      obtain rfl : p = r := PageNode.page.inj (inserted.next_head.symm.trans first)
      obtain ⟨rfl, rfl⟩ := List.cons.inj split
      rw [if_pos ⟨Nat.le_refl _, Nat.lt_succ_self _⟩]
      by_cases above : (area.ptr q).Above ⟨p, true⟩
      · have high : area.raised q = true := by
          by_cases same : area.raised q = true
          · exact same
          · simp [PagePtr.Above, ptr, same] at above
        rw [high, Bool.true_or]
      · by_cases last : list = []
        · rw [last, List.isEmpty_nil, Bool.or_true]
        · -- the search goes on to a page behind the first one
          obtain ⟨_, _, _, later, other⟩ := scan_target visitPtr_page last (some q)
          have onward : scan (area.visitPtr ⟨p, true⟩) id ((q :: list).map .page) none =
              scan (area.visitPtr ⟨p, true⟩) id (list.map .page) (some q) := by
            simp only [List.map_cons, scan, visitPtr, if_neg above]
          cases hit.symm.trans (onward.trans other)
          have once := (List.nodup_cons.mp (List.nodup_cons.mp ring.nodup).2.of_map).1
          rw [later] at once
          simp at once
  | cons s front =>
      obtain ⟨rfl, rfl⟩ := List.cons.inj split
      obtain rfl : q = r := PageNode.page.inj (inserted.next_head.symm.trans first)
      have other : p ≠ q := fun same => fresh (same ▸ List.mem_cons_self)
      rw [if_neg (by omega)]
      simp

end FreeArea

/-- What `free_page` makes of the two pointers of a page, and of which pages on the list
`alloc_page` returns a pointer that leads nowhere. -/
class Aliases where
  freePage : Nat → FreeArea → PagePtr → Nat → Option FreeArea
  wild : FreeArea → Nat → Bool
  inserts : ∀ {fuel n : Nat} {area : FreeArea} {page : PagePtr} {list : List Nat},
    area.nodes.IsRing .head (list.map .page) → list.length < fuel →
    (∀ i < n, page.page + i ∉ list) →
    ∃ after listed, freePage fuel area page n = some after ∧
      FreeArea.Inserts area after list page.page n listed
  /-- A page that is given back by its raised pointer leads nowhere from then on. -/
  wildRaised : Bool
  wild_congr : ∀ {area after : FreeArea}, after.raised = area.raised → wild after = wild area
  wild_free : ∀ {fuel n q : Nat} {area after : FreeArea} {page : PagePtr},
    freePage fuel area page n = some after → ¬ (page.page ≤ q ∧ q < page.page + n) →
    wild after q = wild area q
  wild_first : ∀ {fuel p q r : Nat} {area after : FreeArea} {list : List Nat},
    area.nodes.IsRing .head ((q :: list).map .page) → list.length + 1 < fuel → p ∉ q :: list →
    freePage fuel area ⟨p, true⟩ 1 = some after → after.nodes.next .head = .page r →
    wild after r = (wild area q || (list.isEmpty && wildRaised))

namespace Aliases

/-- The pointers of a page are taken as one. -/
instance together : Aliases where
  freePage fuel area page n := area.freePage fuel page.page n
  wild _ _ := false
  wildRaised := false
  inserts := FreeArea.freePage_inserts
  wild_congr _ := rfl
  wild_free _ _ := rfl
  wild_first _ _ _ _ _ := by simp

theorem freePage_together {fuel n : Nat} {area : FreeArea} {page : PagePtr} :
    Aliases.freePage fuel area page n = area.freePage fuel page.page n := rfl

/-- The pointers are compared as the machine compares them, and `VERTUAL_MEM` may be added to
a pointer twice. -/
@[reducible] def apart : Aliases where
  freePage := FreeArea.freePtr
  wild := FreeArea.raised
  wildRaised := true
  inserts := FreeArea.freePtr_inserts
  wild_congr same := same
  wild_free := FreeArea.freePtr_raised
  wild_first ring enough fresh done first := by
    rw [Bool.and_true]
    exact FreeArea.freePtr_first ring enough fresh done first

end Aliases

end WindOs.Mm
