import WindOs.Mm.PagePointers

namespace WindOs.Mm

open Data

/-! # free_page over raw pointers

Here every link of the list holds a pointer, physical or raised, as the code stores it.
-/

/-- `&free_pages.head`, and a pointer to the `node` of a page. -/
inductive PtrNode where
  | head
  | page (ptr : PagePtr)
deriving DecidableEq

/-- The node that a pointer leads to. -/
def PtrNode.record : PtrNode → PageNode
  | .head => .head
  | .page ptr => .page ptr.page

/-- `free_pages` with the pointers that are stored in the nodes. -/
structure PtrArea where
  next : PageNode → PtrNode
  prev : PageNode → PtrNode
  freePages : Nat → Nat
  flags : Nat → Nat
  freePageNum : Nat

namespace PtrArea

def links (area : PtrArea) : Links PtrNode where
  next ptr := area.next ptr.record
  prev ptr := area.prev ptr.record

/-- The list without the distinction between the pointers. -/
def nodes (area : PtrArea) : Links PageNode where
  next node := (area.next node).record
  prev node := (area.prev node).record

/-- `list_insert_before` -/
def insertBefore (area : PtrArea) (node new : PtrNode) : PtrArea :=
  let area := { area with prev := Function.update area.prev new.record (area.prev node.record) }
  let area := { area with
    next := Function.update area.next (area.prev node.record).record new }
  let area := { area with next := Function.update area.next new.record node }
  { area with prev := Function.update area.prev node.record new }

def insertPages (area : PtrArea) (node : PtrNode) (page : PagePtr) : Nat → PtrArea
  | 0 => area
  | n + 1 => (insertPages area node page n).insertBefore node (.page (page.plus n))

/-- One round of the search; the accumulator is `target`. -/
def visitTarget (page : PagePtr) : PtrNode → Option PagePtr → Option PagePtr ⊕ Option PagePtr
  | .head, target => .inr target
  | .page ptr, _ => if ptr.Above page then .inr (some ptr) else .inl (some ptr)

def mergeDown (area : PtrArea) (page : PagePtr) (n : Nat) (target : PagePtr) : PtrArea :=
  if page.plus n = target then
    let freePages := Function.update area.freePages page.page
      (area.freePages page.page + area.freePages target.page)
    { area with freePages := Function.update freePages target.page 0 }
  else area

def mergeUp (area : PtrArea) (page : PagePtr) : PtrArea :=
  match area.prev (.page page.page) with
  | .head => area
  | .page target =>
      if target.plus (area.freePages target.page) = page then
        let freePages := Function.update area.freePages target.page
          (area.freePages target.page + area.freePages page.page)
        { area with freePages := Function.update freePages page.page 0 }
      else area

/-- `none` says that the search did not end within `fuel` rounds. -/
def freePage (fuel : Nat) (area : PtrArea) (page : PagePtr) (n : Nat) : Option PtrArea :=
  (loop (walk area.links .head (visitTarget page) id) fuel (area.links.next .head, none)).map
    fun found =>
      match found with
      | none => area
      | some target =>
          let area := area.insertPages (.page target) page n
          let area := { area with
            flags := Function.update area.flags page.page 0
            freePages := Function.update area.freePages page.page n
            freePageNum := area.freePageNum + n }
          (area.mergeDown page n target).mergeUp page

variable {area after : PtrArea} {ptrs front back : List PagePtr} {page target : PagePtr}
  {p n fuel : Nat}

/-- The search stops at the first pointer above the page, or at the last pointer. -/
structure Stops (page : PagePtr) (ptrs front : List PagePtr) (target : PagePtr)
    (back : List PagePtr) : Prop where
  split : ptrs = front ++ target :: back
  below : ∀ q ∈ front, ¬ q.Above page
  found : target.Above page ∨ back = []

theorem exists_stops (page : PagePtr) (nonempty : ptrs ≠ []) :
    ∃ front target back, Stops page ptrs front target back := by
  induction ptrs with
  | nil => contradiction
  | cons q rest ih =>
      by_cases above : q.Above page
      · exact ⟨[], q, rest, rfl, by simp, .inl above⟩
      · by_cases last : rest = []
        · exact ⟨[], q, rest, rfl, by simp, .inr last⟩
        · obtain ⟨front, target, back, split, below, found⟩ := ih last
          refine ⟨q :: front, target, back, by rw [split]; rfl, ?_, found⟩
          intro r member
          rcases List.mem_cons.mp member with rfl | inside
          · exact above
          · exact below r inside

theorem scan_visitTarget (stops : Stops page ptrs front target back) (acc : Option PagePtr) :
    scan (visitTarget page) id (ptrs.map .page) acc = some target := by
  obtain ⟨rfl, below, found⟩ := stops
  induction front generalizing acc with
  | nil =>
      by_cases above : target.Above page
      · simp [scan, visitTarget, above]
      · have last := found.resolve_left above
        simp [scan, visitTarget, above, last]
  | cons q front ih =>
      have notAbove : ¬ q.Above page := below q (by simp)
      simp only [List.cons_append, List.map_cons, scan, visitTarget, if_neg notAbove]
      exact ih (some q) fun r member => below r (by simp [member])

theorem insertBefore_nodes (node new : PtrNode) :
    (area.insertBefore node new).nodes = listInsertBefore area.nodes node.record new.record := by
  ext x
  · simp [insertBefore, nodes, listInsertBefore, Function.update_apply, apply_ite PtrNode.record]
  · simp [insertBefore, nodes, listInsertBefore, Function.update_apply, apply_ite PtrNode.record]

theorem insertPages_nodes (node : PtrNode) (n : Nat) :
    (area.insertPages node page n).nodes =
      FreeArea.insertPages area.nodes node.record page.page n := by
  induction n with
  | zero => rfl
  | succ n ih =>
      rw [insertPages, insertBefore_nodes, ih]
      rfl

@[simp] theorem insertPages_freePages (node : PtrNode) (n : Nat) :
    (area.insertPages node page n).freePages = area.freePages := by
  induction n with
  | zero => rfl
  | succ n ih => exact ih

@[simp] theorem insertPages_flags (node : PtrNode) (n : Nat) :
    (area.insertPages node page n).flags = area.flags := by
  induction n with
  | zero => rfl
  | succ n ih => exact ih

@[simp] theorem insertPages_freePageNum (node : PtrNode) (n : Nat) :
    (area.insertPages node page n).freePageNum = area.freePageNum := by
  induction n with
  | zero => rfl
  | succ n ih => exact ih

/-- The first page inserted gets what was stored in front of the target. -/
theorem insertPages_prev (fresh : ∀ i < n + 1, page.page + i ≠ target.page) :
    (area.insertPages (.page target) page (n + 1)).prev (.page page.page) =
      area.prev (.page target.page) := by
  induction n with
  | zero =>
      have different := fresh 0 (by omega)
      simp [insertPages, insertBefore, PagePtr.plus, PtrNode.record, Function.update_apply]
      exact fun same => absurd same different
  | succ n ih =>
      have before := ih fun i small => fresh i (by omega)
      have notTarget := fresh 0 (by omega)
      rw [insertPages]
      simp only [insertBefore, PtrNode.record, PagePtr.plus]
      rw [Function.update_of_ne (by simpa using notTarget), Function.update_of_ne (by simp)]
      exact before

/-- The free list as a sequence of pointers. -/
structure Free (area : PtrArea) (ptrs : List PagePtr) : Prop where
  ring : area.nodes.IsRing .head ((ptrs.map PagePtr.page).map .page)
  trail : area.links.Trail .head (ptrs.map .page) .head

theorem freePage_empty (free : area.Free []) (enough : 0 < fuel) :
    area.freePage fuel page n = some area := by
  have found := @loop_walk _ _ _ _ area.links (visitTarget page) id _ _ _ free.trail (by simp) none
    fuel (by simpa using enough)
  simp [freePage, found, scan]

/-- The area between the insertion and the merges. -/
def inserted (area : PtrArea) (page : PagePtr) (n : Nat) (target : PagePtr) : PtrArea :=
  { area.insertPages (.page target) page n with
    flags := Function.update area.flags page.page 0
    freePages := Function.update area.freePages page.page n
    freePageNum := area.freePageNum + n }

/-- The result of a call that stops at the target. -/
def freed (area : PtrArea) (page : PagePtr) (n : Nat) (target : PagePtr) : PtrArea :=
  ((area.inserted page n target).mergeDown page n target).mergeUp page

theorem freePage_stops (free : area.Free ptrs) (stops : Stops page ptrs front target back)
    (enough : ptrs.length < fuel) :
    area.freePage fuel page n = some (area.freed page n target) := by
  have found := @loop_walk _ _ _ _ area.links (visitTarget page) id _ _ _ free.trail (by simp) none
    fuel (by simpa using enough)
  simp only [freePage, found, scan_visitTarget stops none, Option.map_some, freed, inserted,
    insertPages_flags, insertPages_freePages, insertPages_freePageNum]

@[simp] theorem mergeDown_prev : (area.mergeDown page n target).prev = area.prev := by
  unfold mergeDown
  split <;> rfl

@[simp] theorem mergeDown_nodes : (area.mergeDown page n target).nodes = area.nodes := by
  unfold mergeDown
  split <;> rfl

@[simp] theorem mergeDown_freePageNum :
    (area.mergeDown page n target).freePageNum = area.freePageNum := by
  unfold mergeDown
  split <;> rfl

@[simp] theorem mergeUp_nodes : (area.mergeUp page).nodes = area.nodes := by
  unfold mergeUp
  split
  · rfl
  · split <;> rfl

@[simp] theorem mergeUp_freePageNum : (area.mergeUp page).freePageNum = area.freePageNum := by
  unfold mergeUp
  split
  · rfl
  · split <;> rfl

theorem inserted_ring (free : area.Free ptrs) (stops : Stops page ptrs front target back)
    (fresh : ∀ i < n, page.page + i ∉ ptrs.map PagePtr.page) :
    (area.inserted page n target).nodes.IsRing .head
      ((front.map PagePtr.page ++ (List.range' page.page n ++
        target.page :: back.map PagePtr.page)).map .page) := by
  have ring := free.ring
  rw [stops.split, List.map_append, List.map_cons] at ring fresh
  have inserted : (area.inserted page n target).nodes =
      FreeArea.insertPages area.nodes (.page target.page) page.page n := insertPages_nodes _ _
  rw [inserted]
  exact FreeArea.insertPages_ring ring fresh

/-! ## The merges -/

theorem mergeDown_still (empty : page.plus n = target → area.freePages target.page = 0) :
    (area.mergeDown page n target).freePages = area.freePages := by
  unfold mergeDown
  split
  · rename_i next
    have zero := empty next
    simp only [zero, Nat.add_zero, Function.update_eq_self]
    rw [← zero, Function.update_eq_self]
  · rfl

theorem mergeUp_still (empty : ∀ u, area.prev (.page page.page) = .page u →
    u.plus (area.freePages u.page) = page → area.freePages page.page = 0) :
    (area.mergeUp page).freePages = area.freePages := by
  unfold mergeUp
  split
  · rfl
  · rename_i u before
    split
    · rename_i next
      have zero := empty u before next
      simp only [zero, Nat.add_zero, Function.update_eq_self]
      rw [← zero, Function.update_eq_self]
    · rfl

/-- The merges touch the freed page and its neighbours only. -/
theorem mergeUp_other {q : Nat} (notPage : q ≠ page.page)
    (notBefore : ∀ u, area.prev (.page page.page) = .page u → q ≠ u.page) :
    (area.mergeUp page).freePages q = area.freePages q := by
  unfold mergeUp
  split
  · rfl
  · rename_i u before
    split
    · simp [notPage, notBefore u before]
    · rfl

theorem mergeUp_merges {u : PagePtr} (before : area.prev (.page page.page) = .page u)
    (next : u.plus (area.freePages u.page) = page) : (area.mergeUp page).freePages page.page = 0 := by
  simp [mergeUp, before, next]

theorem mergeDown_page (different : target.page ≠ page.page) :
    area.freePages page.page ≤ (area.mergeDown page n target).freePages page.page := by
  unfold mergeDown
  split
  · simp [different.symm]
  · exact Nat.le_refl _

theorem mergeDown_other {q : Nat} (notPage : q ≠ page.page) (notTarget : q ≠ target.page) :
    (area.mergeDown page n target).freePages q = area.freePages q := by
  unfold mergeDown
  split
  · simp [notPage, notTarget]
  · rfl

theorem freed_none : (area.freed page 0 target).freePages =
    Function.update area.freePages page.page 0 := by
  have down : ((area.inserted page 0 target).mergeDown page 0 target).freePages =
      Function.update area.freePages page.page 0 := by
    refine (mergeDown_still ?_).trans rfl
    rintro rfl
    simp [inserted, PagePtr.plus]
  refine (mergeUp_still ?_).trans down
  intro u _ _
  rw [down, Function.update_self]

/-- What stands in front of the target on the list. -/
theorem before_target (free : area.Free ptrs) (stops : Stops page ptrs front target back) :
    (area.prev (.page target.page)).record =
      (front.getLast?.map fun v => PageNode.page v.page).getD .head := by
  have ring := free.ring
  rw [stops.split, List.map_append, List.map_cons, List.map_append, List.map_cons] at ring
  have last : (area.prev (.page target.page)).record =
      ((front.map PagePtr.page).map PageNode.page).getLastD .head := ring.prev_member
  rw [last, List.getLastD_eq_getLast?, List.getLast?_map, List.getLast?_map, Option.map_map]
  rfl

section OnePage

variable (stops : Stops page ptrs front target back)
  (fresh : ∀ i < n + 1, page.page + i ∉ ptrs.map PagePtr.page)
include stops fresh

theorem target_ne : target.page ≠ page.page := by
  intro same
  have absent := fresh 0 (by omega)
  rw [stops.split] at absent
  exact absent (by simp [← same])

theorem inserted_prev :
    ((area.inserted page (n + 1) target).mergeDown page (n + 1) target).prev (.page page.page) =
      area.prev (.page target.page) := by
  rw [mergeDown_prev]
  refine (insertPages_prev ?_)
  intro i small same
  have absent := fresh i small
  rw [stops.split] at absent
  exact absent (by simp [same])

variable (free : area.Free ptrs)
include free

/-- A page in front of the target is neither the target nor the page that is freed. -/
theorem before_ne {u : PagePtr} (before : area.prev (.page target.page) = .page u) :
    u.page ≠ page.page ∧ u.page ≠ target.page ∧ ∃ v, front.getLast? = some v ∧ v.page = u.page := by
  have last := before_target free stops
  rw [before] at last
  cases found : front.getLast? with
  | none => simp [found, PtrNode.record] at last
  | some v =>
      have same : u.page = v.page := by simpa [found, PtrNode.record] using last
      have member := List.mem_of_getLast? found
      have absent := fresh 0 (by omega)
      have nodup := (List.nodup_cons.mp free.ring.nodup).2.of_map _
      rw [stops.split] at absent nodup
      refine ⟨?_, ?_, v, rfl, same.symm⟩
      · intro equal
        apply absent
        simp only [Nat.add_zero, List.map_append, List.mem_append, List.mem_map]
        exact .inl ⟨v, member, same.symm.trans equal⟩
      · intro equal
        rw [List.map_append, List.map_cons, List.nodup_append] at nodup
        exact nodup.2.2 v.page (List.mem_map_of_mem member) target.page (by simp)
          (same.symm.trans equal)

/-- Nothing is merged when the neighbours do not touch the block. -/
theorem freed_apart
    (down : page.page + (n + 1) = target.page → area.freePages target.page = 0)
    (up : ∀ v, front.getLast? = some v → v.page + area.freePages v.page ≠ page.page) :
    (area.freed page (n + 1) target).freePages =
      Function.update area.freePages page.page (n + 1) := by
  have different := target_ne stops fresh
  have still : ((area.inserted page (n + 1) target).mergeDown page (n + 1) target).freePages =
      Function.update area.freePages page.page (n + 1) := by
    refine (mergeDown_still ?_).trans rfl
    intro next
    have zero := down (by rw [← next]; rfl)
    simpa [inserted, different] using zero
  refine (mergeUp_still ?_).trans still
  intro u before next
  rw [inserted_prev stops fresh] at before
  obtain ⟨notPage, -, v, last, same⟩ := before_ne stops fresh free before
  rw [still, Function.update_of_ne notPage] at next
  have touches : u.page + area.freePages u.page = page.page := congrArg PagePtr.page next
  exact absurd touches (same ▸ up v last)

theorem freed_merges_down (next : page.plus (n + 1) = target) :
    (area.freed page (n + 1) target).freePages target.page = 0 := by
  have different := target_ne stops fresh
  rw [freed, mergeUp_other different]
  · simp [mergeDown, next]
  · intro u before
    rw [inserted_prev stops fresh] at before
    exact (before_ne stops fresh free before).2.1.symm

theorem freed_keeps_target (apart : page.plus (n + 1) ≠ target) :
    (area.freed page (n + 1) target).freePages target.page = area.freePages target.page := by
  have different := target_ne stops fresh
  rw [freed, mergeUp_other different]
  · simp [mergeDown, apart, inserted, different]
  · intro u before
    rw [inserted_prev stops fresh] at before
    exact (before_ne stops fresh free before).2.1.symm

theorem freed_merges_up {u : PagePtr} (before : area.prev (.page target.page) = .page u)
    (next : u.plus (area.freePages u.page) = page) :
    (area.freed page (n + 1) target).freePages page.page = 0 := by
  obtain ⟨notPage, notTarget, -⟩ := before_ne stops fresh free before
  refine mergeUp_merges ((inserted_prev stops fresh).trans before) ?_
  rw [mergeDown_other notPage notTarget]
  simpa [inserted, notPage] using next

theorem freed_keeps_page {u : PagePtr} (before : area.prev (.page target.page) = .page u)
    (apart : u.plus (area.freePages u.page) ≠ page) :
    0 < (area.freed page (n + 1) target).freePages page.page := by
  obtain ⟨notPage, notTarget, -⟩ := before_ne stops fresh free before
  have kept : ((area.inserted page (n + 1) target).mergeDown page (n + 1) target).freePages u.page =
      area.freePages u.page := by
    rw [mergeDown_other notPage notTarget]
    simp [inserted, notPage]
  have large : (area.inserted page (n + 1) target).freePages page.page ≤
      ((area.inserted page (n + 1) target).mergeDown page (n + 1) target).freePages page.page :=
    mergeDown_page (target_ne stops fresh)
  have size : (area.inserted page (n + 1) target).freePages page.page = n + 1 := by simp [inserted]
  have same : area.freed page (n + 1) target =
      (area.inserted page (n + 1) target).mergeDown page (n + 1) target := by
    simp only [freed, mergeUp, (inserted_prev stops fresh).trans before, kept, if_neg apart]
  rw [same]
  omega

end OnePage

/-! ## One kind of pointers

A list that holds pointers of one kind only is the list of page numbers of
`FreeArea`, as long as pages are freed by pointers of that kind.
-/

def forget (area : PtrArea) : FreeArea where
  nodes := area.nodes
  freePages := area.freePages
  flags := area.flags
  freePageNum := area.freePageNum

/-- Every stored pointer to a page in front is of the one kind. -/
def Uniform (area : PtrArea) (raised : Bool) : Prop :=
  ∀ p u, area.prev (.page p) = .page u → u.raised = raised

theorem scan_forget (stops : Stops page ptrs front target back)
    (same : ∀ q ∈ ptrs, q.raised = page.raised) (acc : Option Nat) :
    scan (FreeArea.visitTarget page.page) id ((ptrs.map PagePtr.page).map .page) acc =
      some target.page := by
  obtain ⟨rfl, below, found⟩ := stops
  have above : ∀ q ∈ front ++ target :: back, q.Above page ↔ q.page > page.page := by
    intro q member
    simp [PagePtr.Above, same q member]
  induction front generalizing acc with
  | nil =>
      by_cases larger : target.page > page.page
      · simp [scan, FreeArea.visitTarget, larger]
      · have last := found.resolve_left (mt (above target (by simp)).mp larger)
        simp [scan, FreeArea.visitTarget, larger, last]
  | cons q front ih =>
      have notLarger : ¬ q.page > page.page :=
        mt (above q (by simp)).mpr (below q (by simp))
      simp only [List.cons_append, List.map_cons, scan, FreeArea.visitTarget, if_neg notLarger]
      exact ih (some q.page) (fun r member => below r (List.mem_cons_of_mem _ member))
        (fun r member => same r (List.mem_cons_of_mem _ member))
        fun r member => above r (List.mem_cons_of_mem _ member)

theorem insertPages_uniform (uniform : area.Uniform page.raised) (n : Nat) :
    (area.insertPages (.page target) page n).Uniform page.raised := by
  induction n with
  | zero => exact uniform
  | succ n ih =>
      intro p u before
      simp only [insertPages, insertBefore, Function.update_apply] at before
      split at before
      · cases before
        rfl
      · split at before
        · exact ih _ u before
        · exact ih p u before

theorem mergeDown_forget (same : target.raised = page.raised) :
    (area.mergeDown page n target).forget = area.forget.mergeDown page.page n target.page := by
  have next : page.plus n = target ↔ page.page + n = target.page := by
    obtain ⟨index, raised⟩ := page
    obtain ⟨index', raised'⟩ := target
    cases same
    simp [PagePtr.plus]
  by_cases touches : page.page + n = target.page
  · simp [mergeDown, FreeArea.mergeDown, forget, next, touches, nodes]
  · simp [mergeDown, FreeArea.mergeDown, forget, next, touches, nodes]

theorem mergeUp_forget (uniform : area.Uniform page.raised) :
    (area.mergeUp page).forget = area.forget.mergeUp page.page := by
  unfold mergeUp FreeArea.mergeUp
  cases before : area.prev (.page page.page) with
  | head => simp [forget, nodes, before, PtrNode.record]
  | page u =>
      have next : u.plus (area.freePages u.page) = page ↔
          u.page + area.freePages u.page = page.page := by
        have same := uniform page.page u before
        obtain ⟨index, raised⟩ := page
        obtain ⟨index', raised'⟩ := u
        cases same
        simp [PagePtr.plus]
      by_cases touches : u.page + area.freePages u.page = page.page
      · simp [forget, nodes, before, PtrNode.record, next, touches]
      · simp [forget, nodes, before, PtrNode.record, next, touches]

theorem freePage_forget (free : area.Free ptrs) (uniform : area.Uniform page.raised)
    (same : ∀ q ∈ ptrs, q.raised = page.raised) (enough : ptrs.length < fuel) :
    (area.freePage fuel page n).map forget = area.forget.freePage fuel page.page n := by
  have search := @loop_walk_ring _ _ _ _ _ (FreeArea.visitTarget page.page) id _ _ free.ring none
    fuel (by simpa using enough)
  by_cases empty : ptrs = []
  · subst empty
    rw [freePage_empty free (by simpa using enough)]
    simp only [FreeArea.freePage, Option.map_some]
    rw [show area.forget.nodes = area.nodes from rfl, search]
    simp [scan]
  · obtain ⟨front, target, back, stops⟩ := @exists_stops ptrs page empty
    rw [freePage_stops free stops enough, Option.map_some]
    simp only [FreeArea.freePage]
    rw [show area.forget.nodes = area.nodes from rfl, search, scan_forget stops same none,
      Option.map_some]
    have alike : target.raised = page.raised := same target (by simp [stops.split])
    have kept : ((area.inserted page n target).mergeDown page n target).Uniform page.raised := by
      intro p u before
      rw [mergeDown_prev] at before
      exact insertPages_uniform uniform n p u before
    have start : (area.inserted page n target).forget =
        { nodes := FreeArea.insertPages area.nodes (.page target.page) page.page n
          flags := Function.update area.flags page.page 0
          freePages := Function.update area.freePages page.page n
          freePageNum := area.freePageNum + n } := by
      have nodes := @insertPages_nodes area page (.page target) n
      simp only [inserted, forget]
      congr 1
    rw [freed, mergeUp_forget kept, mergeDown_forget alike, start]
    rfl

/-! ## Both pointers -/

theorem Stops.unique {front' back' : List PagePtr} {target' : PagePtr}
    (stops : Stops page ptrs front target back) (again : Stops page ptrs front' target' back') :
    front = front' ∧ target = target' ∧ back = back' := by
  obtain ⟨rfl, below, found⟩ := stops
  obtain ⟨split, below', found'⟩ := again
  induction front generalizing front' with
  | nil =>
      cases front' with
      | nil => simpa using split
      | cons q front' =>
          obtain ⟨rfl, rest⟩ := List.cons.inj split
          have last := found.resolve_left (below' target (by simp))
          simp [last] at rest
  | cons q front ih =>
      cases front' with
      | nil =>
          obtain ⟨rfl, rest⟩ := List.cons.inj split
          have last := found'.resolve_left (below q (by simp))
          simp [last] at rest
      | cons q' front' =>
          obtain ⟨rfl, rest⟩ := List.cons.inj split
          obtain ⟨rfl, same⟩ := ih (fun r member => below r (by simp [member])) rest
            fun r member => below' r (by simp [member])
          exact ⟨rfl, same⟩

theorem above_low {q : PagePtr} (above : q.Above ⟨p, true⟩) : q.Above ⟨p, false⟩ := by
  obtain ⟨page, raised⟩ := q
  cases raised <;> simp_all [PagePtr.Above]

/-- Both calls return, with the same pages on the list and the same fields. -/
def SameEitherWay (area : PtrArea) (ptrs : List PagePtr) (p n : Nat) : Prop :=
  ∀ fuel > ptrs.length, ∃ low high,
    area.freePage fuel ⟨p, false⟩ n = some low ∧ area.freePage fuel ⟨p, true⟩ n = some high ∧
    (∃ pages : List Nat, low.nodes.IsRing .head (pages.map .page) ∧
      high.nodes.IsRing .head (pages.map .page)) ∧
    low.freePages = high.freePages ∧ low.freePageNum = high.freePageNum

/-- The first pointer above the physical one is also above the raised one, unless
it is the last, and the block touches neither of the pages it is put between. -/
structure Alike (area : PtrArea) (ptrs : List PagePtr) (p n : Nat) : Prop where
  stop : ∀ front q back, ptrs = front ++ q :: back → back ≠ [] →
    (∀ r ∈ front, ¬ r.Above ⟨p, false⟩) → q.Above ⟨p, false⟩ → q.Above ⟨p, true⟩
  down : ∀ front q back, Stops ⟨p, false⟩ ptrs front q back →
    p + n = q.page → area.freePages q.page = 0
  up : ∀ front q back, Stops ⟨p, false⟩ ptrs front q back →
    ∀ v, front.getLast? = some v → v.page + area.freePages v.page ≠ p

theorem freed_ring (free : area.Free ptrs) (stops : Stops page ptrs front target back)
    (fresh : ∀ i < n, page.page + i ∉ ptrs.map PagePtr.page) :
    (area.freed page n target).nodes.IsRing .head
      ((front.map PagePtr.page ++ (List.range' page.page n ++
        target.page :: back.map PagePtr.page)).map .page) := by
  rw [freed, mergeUp_nodes, mergeDown_nodes]
  exact inserted_ring free stops fresh

theorem same_of_alike (free : area.Free ptrs) (nonempty : ptrs ≠ [])
    (fresh : ∀ i < n + 1, p + i ∉ ptrs.map PagePtr.page) (alike : Alike area ptrs p (n + 1)) :
    SameEitherWay area ptrs p (n + 1) := by
  intro fuel enough
  obtain ⟨front, target, back, low⟩ := @exists_stops ptrs ⟨p, false⟩ nonempty
  have high : Stops ⟨p, true⟩ ptrs front target back := by
    refine ⟨low.split, ?_, ?_⟩
    · intro q member above
      exact low.below q member (above_low above)
    · by_cases last : back = []
      · exact .inr last
      · have above := low.found.resolve_right last
        exact .inl (alike.stop front target back low.split last low.below above)
  have up := alike.up front target back low
  have down := alike.down front target back low
  refine ⟨_, _, freePage_stops free low enough, freePage_stops free high enough,
    ⟨_, freed_ring free low fresh, freed_ring free high fresh⟩, ?_, ?_⟩
  · exact (freed_apart low fresh free down up).trans (freed_apart high fresh free down up).symm
  · simp [freed, inserted]

theorem same_of_none (free : area.Free ptrs) (nonempty : ptrs ≠ []) :
    SameEitherWay area ptrs p 0 := by
  intro fuel enough
  obtain ⟨front, target, back, low⟩ := @exists_stops ptrs ⟨p, false⟩ nonempty
  obtain ⟨front', target', back', high⟩ := @exists_stops ptrs ⟨p, true⟩ nonempty
  have lowRing := @freed_ring area ptrs front back ⟨p, false⟩ target 0 free low (by simp)
  have highRing := @freed_ring area ptrs front' back' ⟨p, true⟩ target' 0 free high (by simp)
  have lowList : front.map PagePtr.page ++ (List.range' p 0 ++ target.page :: back.map PagePtr.page) =
      ptrs.map PagePtr.page := by
    simp [low.split]
  have highList : front'.map PagePtr.page ++
      (List.range' p 0 ++ target'.page :: back'.map PagePtr.page) = ptrs.map PagePtr.page := by
    simp [high.split]
  rw [lowList] at lowRing
  rw [highList] at highRing
  refine ⟨_, _, freePage_stops free low enough, freePage_stops free high enough,
    ⟨_, lowRing, highRing⟩, ?_, ?_⟩
  · exact (@freed_none area ⟨p, false⟩ target).trans (@freed_none area ⟨p, true⟩ target').symm
  · simp [freed, inserted]

theorem alike_of_same (free : area.Free ptrs) (nonempty : ptrs ≠ [])
    (fresh : ∀ i < n + 1, p + i ∉ ptrs.map PagePtr.page)
    (same : SameEitherWay area ptrs p (n + 1)) : Alike area ptrs p (n + 1) := by
  obtain ⟨lowArea, highArea, lowCall, highCall, ⟨pages, lowPages, highPages⟩, fields, -⟩ :=
    same (ptrs.length + 1) (Nat.lt_succ_self _)
  obtain ⟨front, target, back, low⟩ := @exists_stops ptrs ⟨p, false⟩ nonempty
  obtain ⟨front', target', back', high⟩ := @exists_stops ptrs ⟨p, true⟩ nonempty
  rw [freePage_stops free low (Nat.lt_succ_self _)] at lowCall
  rw [freePage_stops free high (Nat.lt_succ_self _)] at highCall
  cases lowCall
  cases highCall
  have inserted : front = front' ∧ target = target' ∧ back = back' := by
    -- The place of the block on the list tells how many pages the search has passed.
    have lists := (freed_ring free low fresh).unique lowPages
    have lists' := (freed_ring free high fresh).unique highPages
    have places := List.map_injective_iff.mpr (fun _ _ => PageNode.page.inj)
      (lists.trans lists'.symm)
    have absent : p ∉ front.map PagePtr.page ++ target.page :: back.map PagePtr.page := by
      simpa [low.split] using fresh 0 (by omega)
    simp only [List.range'_succ, List.cons_append] at places
    rw [List.append_cons_inj_of_notMem] at places
    · have size := congrArg List.length places.1
      rw [List.length_map, List.length_map] at size
      obtain ⟨fronts, rest⟩ := List.append_inj (low.split.symm.trans high.split) size
      obtain ⟨targets, backs⟩ := List.cons.inj rest
      exact ⟨fronts, targets, backs⟩
    · exact fun inside => absent (List.mem_append_left _ inside)
    · intro inside
      rcases List.mem_append.mp inside with later | behind
      · rw [List.mem_range'_1] at later
        omega
      · exact absent (List.mem_append_right _ behind)
  obtain ⟨rfl, rfl, rfl⟩ := inserted
  constructor
  · intro front' q back' split last below above
    obtain ⟨rfl, rfl, rfl⟩ := low.unique ⟨split, below, .inl above⟩
    exact high.found.resolve_right last
  · intro front' q back' stops next
    obtain ⟨rfl, rfl, rfl⟩ := low.unique stops
    have here := congrFun fields target.page
    cases raised : target.raised with
    | false =>
        have merges : PagePtr.plus ⟨p, false⟩ (n + 1) = target := by
          rw [← raised]
          exact congrArg (PagePtr.mk · target.raised) next
        have apart : PagePtr.plus ⟨p, true⟩ (n + 1) ≠ target := by
          intro equal
          simp [← equal, PagePtr.plus] at raised
        rw [freed_merges_down low fresh free merges, freed_keeps_target high fresh free apart] at here
        exact here.symm
    | true =>
        have merges : PagePtr.plus ⟨p, true⟩ (n + 1) = target := by
          rw [← raised]
          exact congrArg (PagePtr.mk · target.raised) next
        have apart : PagePtr.plus ⟨p, false⟩ (n + 1) ≠ target := by
          intro equal
          simp [← equal, PagePtr.plus] at raised
        rw [freed_keeps_target low fresh free apart, freed_merges_down high fresh free merges] at here
        exact here
  · intro front' q back' stops v last touches
    obtain ⟨rfl, rfl, rfl⟩ := low.unique stops
    have record := before_target free low
    rw [last] at record
    cases before : area.prev (.page target.page) with
    | head => simp [before, PtrNode.record] at record
    | page u =>
        have same : u.page = v.page := by simpa [before, PtrNode.record] using record
        have next : u.page + area.freePages u.page = p := same ▸ touches
        have here := congrFun fields p
        cases raised : u.raised with
        | false =>
            have merges : u.plus (area.freePages u.page) = ⟨p, false⟩ := by
              simp [PagePtr.plus, next, raised]
            have apart : u.plus (area.freePages u.page) ≠ ⟨p, true⟩ := by
              simp [PagePtr.plus, raised]
            have zero : (area.freed ⟨p, false⟩ (n + 1) target).freePages p = 0 :=
              freed_merges_up low fresh free before merges
            have positive : 0 < (area.freed ⟨p, true⟩ (n + 1) target).freePages p :=
              freed_keeps_page high fresh free before apart
            omega
        | true =>
            have merges : u.plus (area.freePages u.page) = ⟨p, true⟩ := by
              simp [PagePtr.plus, next, raised]
            have apart : u.plus (area.freePages u.page) ≠ ⟨p, false⟩ := by
              simp [PagePtr.plus, raised]
            have zero : (area.freed ⟨p, true⟩ (n + 1) target).freePages p = 0 :=
              freed_merges_up high fresh free before merges
            have positive : 0 < (area.freed ⟨p, false⟩ (n + 1) target).freePages p :=
              freed_keeps_page low fresh free before apart
            omega

/-- Freeing a block by its physical and by its raised pointer comes to the same
exactly when nothing is freed, the list is empty, or the pointers compare alike. -/
theorem alias_independent (free : area.Free ptrs)
    (fresh : ∀ i < n, p + i ∉ ptrs.map PagePtr.page) :
    SameEitherWay area ptrs p n ↔ n = 0 ∨ ptrs = [] ∨ Alike area ptrs p n := by
  by_cases empty : ptrs = []
  · subst empty
    simp only [true_or, or_true, iff_true]
    intro fuel enough
    exact ⟨area, area, freePage_empty free (by simpa using enough),
      freePage_empty free (by simpa using enough), ⟨[], free.ring, free.ring⟩, rfl, rfl⟩
  · cases n with
    | zero => simpa using same_of_none free empty
    | succ n =>
        simp only [Nat.add_eq_zero_iff, one_ne_zero, and_false, empty, false_or]
        exact ⟨alike_of_same free empty fresh, same_of_alike free empty fresh⟩

/-- Page 3 alone is free. -/
def lastFree : PtrArea where
  next node := if node = .head then .page ⟨3, false⟩ else .head
  prev node := if node = .head then .page ⟨3, false⟩ else .head
  freePages p := if p = 3 then 1 else 0
  flags _ := 0
  freePageNum := 1

/-- Page 0 goes in front of page 3, whichever pointer is given. -/
theorem alias_independent_apart : SameEitherWay lastFree [⟨3, false⟩] 0 1 := by
  have free : lastFree.Free [⟨3, false⟩] := by
    refine ⟨⟨by decide, ?_⟩, rfl, rfl⟩
    exact ⟨⟨by decide, by decide⟩, by decide, by decide⟩
  refine (alias_independent free (by decide)).mpr (.inr (.inr ⟨?_, ?_, ?_⟩))
  · intro front q back split last
    cases front with
    | nil => simp_all
    | cons r front => simp at split
  · intro front q back stops next
    have member : q ∈ [PagePtr.mk 3 false] := by simp [stops.split]
    obtain rfl : q = ⟨3, false⟩ := by simpa using member
    cases next
  · intro front q back stops v last
    have alone : Stops ⟨0, false⟩ [⟨3, false⟩] [] ⟨3, false⟩ [] := ⟨rfl, by simp, .inr rfl⟩
    obtain ⟨rfl, -, -⟩ := stops.unique alone
    cases last

/-- The pages 1, 2 and 3 are free, and known by their physical pointers. -/
def threeFree : PtrArea where
  next
    | .head => .page ⟨1, false⟩
    | .page 1 => .page ⟨2, false⟩
    | .page 2 => .page ⟨3, false⟩
    | _ => .head
  prev
    | .head => .page ⟨3, false⟩
    | .page 3 => .page ⟨2, false⟩
    | .page 2 => .page ⟨1, false⟩
    | _ => .head
  freePages p := if p = 1 then 3 else 0
  flags _ := 0
  freePageNum := 3

/-- Page 0 is merged with the run behind it by its physical pointer only. -/
theorem raised_pointer_not_merged :
    threeFree.Free [⟨1, false⟩, ⟨2, false⟩, ⟨3, false⟩] ∧
    ¬ SameEitherWay threeFree [⟨1, false⟩, ⟨2, false⟩, ⟨3, false⟩] 0 1 := by
  constructor
  · refine ⟨⟨by decide, ?_⟩, rfl, rfl, rfl, rfl⟩
    exact ⟨⟨by decide, by decide⟩, ⟨by decide, by decide⟩, ⟨by decide, by decide⟩, by decide,
      by decide⟩
  · intro same
    obtain ⟨low, high, lowCall, highCall, -, fields, -⟩ := same 4 (by decide)
    have lowRun : (threeFree.freePage 4 ⟨0, false⟩ 1).any (fun area => area.freePages 0 = 4) := by
      decide
    have highRun : (threeFree.freePage 4 ⟨0, true⟩ 1).any (fun area => area.freePages 0 = 1) := by
      decide
    have four : low.freePages 0 = 4 := by simpa [lowCall] using lowRun
    have one : high.freePages 0 = 1 := by simpa [highCall] using highRun
    rw [fields, one] at four
    cases four

end PtrArea

end WindOs.Mm
