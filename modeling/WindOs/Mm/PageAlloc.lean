import Mathlib.Data.List.Nodup
import WindOs.Data.Machine
import WindOs.Data.Exact
import WindOs.Data.Walk
import WindOs.List

namespace WindOs.Mm

open Data

/-! # alloc_page and free_page of pmm.c

A `struct Page` is named by its index, which stands for both of its pointers.
Where the code would take the list head for a page, nothing is written.
-/

def pageSize : Nat := 4096

/-- `VERTUAL_MEM` of the source. -/
def vertualMem : Nat := 0xC0000000

def maxPageNum : Nat := 30000

/-- `&free_pages.head`, `&mm->vm_fifo`, and the `node` of a page, through which it is
linked into the one list or the other. -/
inductive PageNode where
  | head
  | vmFifo
  | page (p : Nat)
deriving DecidableEq, Repr

/-- `free_pages`, with the fields of the pages that the allocator uses. -/
structure FreeArea where
  nodes : Links PageNode
  freePages : Nat → Nat
  flags : Nat → Nat
  freePageNum : Nat
  /-- The page was last put on the list by its pointer that is raised by `VERTUAL_MEM`. -/
  raised : Nat → Bool := fun _ => false

namespace FreeArea

/-- `list_insert_before(node, &(page + i)->node)` for each `i < n`. -/
def insertPages (nodes : Links PageNode) (node : PageNode) (page : Nat) : Nat → Links PageNode
  | 0 => nodes
  | n + 1 => listInsertBefore (insertPages nodes node page n) node (.page (page + n))

/-- The list and the fields as `page_init` leaves them. -/
def pageInit (nodes : Links PageNode) (count : Nat) : FreeArea where
  nodes := insertPages (listInit nodes .head) .head 0 count
  freePages := Function.update (fun _ => 0) 0 count
  flags := fun _ => 0
  freePageNum := count

/-- The `for` loop that unlinks `n` nodes, with the variables `del` and `del_next`. -/
def deletePages : Nat → Links PageNode → PageNode → PageNode → Links PageNode × PageNode
  | 0, nodes, del, _ => (nodes, del)
  | n + 1, nodes, del, delNext =>
      let nodes := listDelete nodes del
      deletePages n nodes delNext (nodes.next delNext)

/-- Write to the page of a node, if it is the node of a page. -/
def setPage (area : FreeArea) (node : PageNode) (freePages flags : Nat) : FreeArea :=
  match node with
  | .page p =>
      { area with
        freePages := Function.update area.freePages p freePages
        flags := Function.update area.flags p flags }
  | _ => area

/-- One round of the search of `alloc_page`, which looks at the first page every time. -/
def visitFirst (area : FreeArea) (n : Nat) : PageNode → Unit → Unit ⊕ Option Nat
  | _, _ =>
      match area.nodes.next .head with
      | .page p => if area.freePages p ≥ n then .inr (some p) else .inl ()
      | _ => .inl ()

/-- The page returned, `none` for `NULL`, and the free area afterwards.  The outer
`none` says that the search did not end within `fuel` rounds. -/
def allocPage (fuel : Nat) (area : FreeArea) (n : Nat) : Option (Option Nat × FreeArea) :=
  if n > area.freePageNum then some (none, area)
  else
    (loop (walk area.nodes .head (area.visitFirst n) fun _ => none) fuel
      (area.nodes.next .head, ())).map fun found =>
        match found with
        | none => (none, area)
        | some page =>
            let remainBlocks := area.freePages page - n
            let deleted := deletePages n area.nodes (.page page) (area.nodes.next (.page page))
            let area := { area with nodes := deleted.1 }
            let area := area.setPage deleted.2 remainBlocks 1
            (some page, { area with freePageNum := area.freePageNum - n })

/-- One round of the search of `free_page`; the accumulator is `target`. -/
def visitTarget (page : Nat) : PageNode → Option Nat → Option Nat ⊕ Option Nat
  | .page p, _ => if p > page then .inr (some p) else .inl (some p)
  | _, target => .inr target

/-- Merge the freed block with the block that begins at `target`. -/
def mergeDown (area : FreeArea) (page n target : Nat) : FreeArea :=
  if page + n = target then
    let freePages := Function.update area.freePages page (area.freePages page + area.freePages target)
    { area with freePages := Function.update freePages target 0 }
  else area

/-- Merge the freed block into the page in front of it. -/
def mergeUp (area : FreeArea) (page : Nat) : FreeArea :=
  match area.nodes.prev (.page page) with
  | .page target =>
      if target + area.freePages target = page then
        let freePages :=
          Function.update area.freePages target (area.freePages target + area.freePages page)
        { area with freePages := Function.update freePages page 0 }
      else area
  | _ => area

/-- `none` says that the search did not end within `fuel` rounds. -/
def freePage (fuel : Nat) (area : FreeArea) (page n : Nat) : Option FreeArea :=
  (loop (walk area.nodes .head (visitTarget page) id) fuel (area.nodes.next .head, none)).map
    fun found =>
      match found with
      | none => area
      | some target =>
          let area := { area with
            nodes := insertPages area.nodes (.page target) page n
            flags := Function.update area.flags page 0
            freePages := Function.update area.freePages page n
            freePageNum := area.freePageNum + n }
          (area.mergeDown page n target).mergeUp page

variable {nodes : Links PageNode} {front back : List Nat} {page target n : Nat}

theorem deletePages_ring {run rest : List PageNode} (ring : nodes.IsRing .head (run ++ rest)) :
    (deletePages run.length nodes ((run ++ rest).headD .head)
        (nodes.next ((run ++ rest).headD .head))).1.IsRing .head rest ∧
      (deletePages run.length nodes ((run ++ rest).headD .head)
        (nodes.next ((run ++ rest).headD .head))).2 = rest.headD .head := by
  induction run generalizing nodes with
  | nil => exact ⟨ring, rfl⟩
  | cons first run ih =>
      have deleted := @listDelete_ring _ _ _ _ _ [] _ ring
      have next := @Links.IsRing.next_member _ _ _ _ [] _ ring
      simp only [List.cons_append, List.headD_cons, List.length_cons, deletePages, next]
      exact ih deleted

/-- Whatever is linked elsewhere is left alone. -/
theorem deletePages_agreeOff {run rest : List PageNode} (ring : nodes.IsRing .head (run ++ rest)) :
    nodes.AgreeOff (deletePages run.length nodes ((run ++ rest).headD .head)
      (nodes.next ((run ++ rest).headD .head))).1 (.head :: (run ++ rest)) := by
  induction run generalizing nodes with
  | nil => exact .refl _ _
  | cons first run ih =>
      have deleted := @listDelete_ring _ _ _ _ _ [] _ ring
      have next := @Links.IsRing.next_member _ _ _ _ [] _ ring
      have once := @listDelete_agreeOff _ _ _ _ first _ ring (by simp)
      simp only [List.cons_append, List.headD_cons, List.length_cons, deletePages, next]
      refine once.trans ((ih deleted).mono ?_)
      intro node member
      simp only [List.mem_cons, List.mem_append] at member ⊢
      tauto

theorem insertPages_ring (ring : nodes.IsRing .head ((front ++ target :: back).map .page))
    (fresh : ∀ i < n, page + i ∉ front ++ target :: back) :
    (insertPages nodes (.page target) page n).IsRing .head
      ((front ++ (List.range' page n ++ target :: back)).map .page) := by
  induction n with
  | zero => simpa [insertPages] using ring
  | succ n ih =>
      have inserted := ih (fun i small => fresh i (by omega))
      have absent : page + n ∉ front ++ (List.range' page n ++ target :: back) := by
        have outside := fresh n (by omega)
        simp only [List.mem_append, List.mem_range'_1] at outside ⊢
        simp only [not_or] at outside ⊢
        exact ⟨outside.1, by omega, outside.2⟩
      have split : front ++ (List.range' page n ++ target :: back) =
          (front ++ List.range' page n) ++ target :: back := by simp
      rw [split, List.map_append, List.map_cons] at inserted
      rw [split] at absent
      have more := @listInsertBefore_ring _ _ _ _ _ (.page (page + n)) _ _ inserted
        (by simpa using absent)
      rw [List.range'_1_concat]
      simpa [insertPages] using more

theorem insertPages_agreeOff (ring : nodes.IsRing .head ((front ++ target :: back).map .page))
    (fresh : ∀ i < n, page + i ∉ front ++ target :: back) :
    nodes.AgreeOff (insertPages nodes (.page target) page n)
      (.head :: (front ++ (List.range' page n ++ target :: back)).map .page) := by
  induction n with
  | zero => exact .refl _ _
  | succ n ih =>
      have before := fun i (small : i < n) => fresh i (by omega)
      have inserted := insertPages_ring ring before
      have absent : page + n ∉ front ++ (List.range' page n ++ target :: back) := by
        have outside := fresh n (by omega)
        simp only [List.mem_append, List.mem_range'_1] at outside ⊢
        simp only [not_or] at outside ⊢
        exact ⟨outside.1, by omega, outside.2⟩
      have once := @listInsertBefore_agreeOff _ _ _ _ (.page target) (.page (page + n)) _ inserted
        (by simp) (by simpa using absent)
      rw [List.range'_1_concat]
      refine ((ih before).mono ?_).trans (once.mono ?_)
      · intro node member
        simp only [List.map_append, List.map_cons, List.mem_cons, List.mem_append] at member ⊢
        tauto
      · intro node member
        simp only [List.map_append, List.map_cons, List.map_nil, List.mem_cons, List.mem_append]
          at member ⊢
        tauto

theorem insertPages_head_ring (ring : nodes.IsRing .head []) :
    (insertPages nodes .head page n).IsRing .head ((List.range' page n).map .page) := by
  induction n with
  | zero => simpa [insertPages] using ring
  | succ n ih =>
      have more := @listInsertBefore_head_ring _ _ _ _ (.page (page + n)) _ ih (by simp)
      rw [List.range'_1_concat]
      simpa [insertPages] using more

/-! ## What the two functions do to the list -/

variable {area after : FreeArea} {list : List Nat} {fuel : Nat}

theorem scan_visitFirst (pages : List PageNode) :
    scan (area.visitFirst n) (fun _ => none) pages () =
      if pages = [] then none
      else match area.nodes.next .head with
        | .page p => if area.freePages p ≥ n then some p else none
        | _ => none := by
  induction pages with
  | nil => simp [scan]
  | cons node pages ih =>
      rw [if_neg (List.cons_ne_nil _ _)]
      cases first : area.nodes.next .head with
      | head => simp [scan, visitFirst, ih, first]
      | vmFifo => simp [scan, visitFirst, ih, first]
      | page p =>
          by_cases large : area.freePages p ≥ n
          · simp [scan, visitFirst, first, large]
          · simp [scan, visitFirst, ih, first, large]

/-- `alloc_page` looks at the first page of the list only. -/
theorem search_first (ring : area.nodes.IsRing .head (list.map .page)) (enough : list.length < fuel) :
    loop (walk area.nodes .head (area.visitFirst n) fun _ => none) fuel
      (area.nodes.next .head, ()) =
      some (match list with
        | [] => none
        | p :: _ => if area.freePages p ≥ n then some p else none) := by
  rw [loop_walk_ring ring () (by simpa using enough), scan_visitFirst]
  cases list with
  | nil => simp
  | cons p back =>
      rw [if_neg (by simp), ring.next_head]
      rfl

@[simp] theorem setPage_nodes (node : PageNode) (freePages flags : Nat) :
    (area.setPage node freePages flags).nodes = area.nodes := by
  cases node <;> rfl

@[simp] theorem setPage_freePageNum (node : PageNode) (freePages flags : Nat) :
    (area.setPage node freePages flags).freePageNum = area.freePageNum := by
  cases node <;> rfl

theorem setPage_headed {rest : List Nat} {remain flag : Nat}
    (headed : ∀ q tail, rest = q :: tail → Headed (Function.update area.freePages q remain) rest) :
    Headed (area.setPage ((rest.map .page).headD .head) remain flag).freePages rest := by
  cases rest with
  | nil => trivial
  | cons q tail => exact headed q tail rfl

theorem setPage_outside {rest : List Nat} {remain flag q : Nat} (outside : q ∉ rest) :
    (area.setPage ((rest.map .page).headD .head) remain flag).freePages q = area.freePages q := by
  cases rest with
  | nil => rfl
  | cons p tail =>
      have different : q ≠ p := fun same => outside (by simp [same])
      exact Function.update_of_ne different _ _

/-- Either nothing happens, or a run is taken from the front of the list. -/
theorem allocPage_spec (ring : area.nodes.IsRing .head (list.map .page)) (nodup : list.Nodup)
    (num : area.freePageNum = list.length) (headed : Headed area.freePages list)
    (positive : 0 < n) (enough : list.length < fuel) :
    area.allocPage fuel n = some (none, area) ∨
      ∃ page rest after, list = List.range' page n ++ rest ∧
        (∀ q ∈ List.range' (page + 1) (n - 1), area.freePages q = 0) ∧
        area.allocPage fuel n = some (some page, after) ∧
        after.nodes.IsRing .head (rest.map .page) ∧ after.freePageNum = rest.length ∧
        Headed after.freePages rest ∧ (∀ q ∉ rest, after.freePages q = area.freePages q) ∧
        n ≤ area.freePages page ∧ (∀ q tail, rest = q :: tail →
          after.freePages = Function.update area.freePages q (area.freePages page - n)) ∧
        area.nodes.AgreeOff after.nodes (.head :: list.map .page) := by
  rw [allocPage, search_first ring enough]
  by_cases many : n > area.freePageNum
  · exact .inl (by rw [if_pos many])
  · rw [if_neg many]
    cases list with
    | nil => exact .inl rfl
    | cons page back =>
        by_cases large : area.freePages page ≥ n
        · obtain ⟨rest, whole, zero, behind⟩ := headed.take_run large positive nodup
          right
          rw [whole, List.map_append] at ring
          have deleted := deletePages_ring ring
          have agree := deletePages_agreeOff ring
          have first : ((List.range' page n).map PageNode.page ++ rest.map PageNode.page).headD .head =
              .page page := by
            rw [← List.map_append, ← whole]
            rfl
          rw [first, List.length_map, List.length_range'] at deleted agree
          refine ⟨page, rest, _, whole, zero, by simp only [if_pos large, Option.map_some]; rfl, ?_⟩
          rw [deleted.2]
          refine ⟨by simpa using deleted.1, ?_, setPage_headed behind, ?_, large, ?_, ?_⟩
          · rw [setPage_freePageNum, num, whole]
            simp
          · intro q outside
            exact setPage_outside outside
          · rintro q tail rfl
            rfl
          · rw [setPage_nodes, whole, List.map_append]
            exact agree
        · exact .inl (by simp only [if_neg large, Option.map_some])

theorem scan_visitTarget (below : ∀ q ∈ front, q < page) (above : page < target) (acc : Option Nat) :
    scan (visitTarget page) id ((front ++ target :: back).map .page) acc = some target := by
  induction front generalizing acc with
  | nil => simp [scan, visitTarget, above]
  | cons q front ih =>
      have notAbove : ¬ q > page := by
        have lower := below q (by simp)
        omega
      simp only [List.cons_append, List.map_cons, scan, visitTarget, if_neg notAbove]
      exact ih (fun r member => below r (List.mem_cons_of_mem _ member)) _

@[simp] theorem mergeDown_nodes : (area.mergeDown page n target).nodes = area.nodes := by
  unfold mergeDown
  split <;> rfl

@[simp] theorem mergeDown_freePageNum :
    (area.mergeDown page n target).freePageNum = area.freePageNum := by
  unfold mergeDown
  split <;> rfl

theorem mergeDown_other {q : Nat} (notPage : q ≠ page) (notTarget : q ≠ target) :
    (area.mergeDown page n target).freePages q = area.freePages q := by
  unfold mergeDown
  split
  · simp [notPage, notTarget]
  · rfl

theorem mergeDown_freePages (size : area.freePages page = n) :
    (area.mergeDown page n target).freePages =
      if page + n = target then
        Function.update (Function.update area.freePages page (n + area.freePages target)) target 0
      else area.freePages := by
  unfold mergeDown
  split
  · rw [size]
  · rfl

theorem mergeUp_freePages : (area.mergeUp page).freePages =
    joinUp area.freePages page (match area.nodes.prev (.page page) with
      | .page target => some target
      | _ => none) := by
  unfold mergeUp
  cases area.nodes.prev (.page page) with
  | head => rfl
  | vmFifo => rfl
  | page target =>
      simp only [joinUp]
      split <;> rfl

theorem mergeDown_headed (headed : Headed area.freePages (front ++ (List.range' page n ++ target :: back)))
    (sorted : (front ++ (List.range' page n ++ target :: back)).Pairwise (· < ·))
    (positive : 0 < n) (size : area.freePages page = n) :
    Headed (area.mergeDown page n target).freePages
      (front ++ (List.range' page n ++ target :: back)) := by
  unfold mergeDown
  split
  · rename_i meets
    rw [← cons_range page positive, List.cons_append, ← size] at headed sorted ⊢
    exact headed.join (by omega) (by omega) (sorted.imp Nat.ne_of_lt)
  · exact headed

@[simp] theorem mergeUp_nodes : (area.mergeUp page).nodes = area.nodes := by
  unfold mergeUp
  split
  · split <;> rfl
  · rfl

@[simp] theorem mergeUp_freePageNum : (area.mergeUp page).freePageNum = area.freePageNum := by
  unfold mergeUp
  split
  · split <;> rfl
  · rfl

theorem mergeUp_headed (ring : area.nodes.IsRing .head ((front ++ page :: back).map .page))
    (headed : Headed area.freePages (front ++ page :: back))
    (sorted : (front ++ page :: back).Pairwise (· < ·)) :
    Headed (area.mergeUp page).freePages (front ++ page :: back) ∧
      ∀ q ∉ front ++ page :: back, (area.mergeUp page).freePages q = area.freePages q := by
  rw [List.map_append, List.map_cons] at ring
  have previous := ring.prev_member
  cases List.eq_nil_or_concat front with
  | inl empty =>
      subst empty
      have first : area.nodes.prev (.page page) = .head := previous
      simp only [mergeUp, first]
      exact ⟨headed, fun _ _ => trivial⟩
  | inr more =>
      obtain ⟨init, target, rfl⟩ := more
      have before : area.nodes.prev (.page page) = .page target := by simpa using previous
      simp only [mergeUp, before]
      split
      · rename_i meets
        rw [List.concat_append] at headed sorted ⊢
        have lower : target < page := by
          have behind := (List.pairwise_append.mp sorted).2.1
          exact (List.pairwise_cons.mp behind).1 page (by simp)
        have single := headed.single meets lower
        have nodup : (init ++ target :: page :: back).Nodup := sorted.imp Nat.ne_of_lt
        have joined := @Headed.join area.freePages init back page target
          (by simpa [single] using headed) meets lower
          (by simpa [single] using nodup)
        refine ⟨by simpa [single] using joined, ?_⟩
        intro q outside
        have notTarget : q ≠ target := fun same => outside (by simp [same])
        have notPage : q ≠ page := fun same => outside (by simp [same])
        simp [notTarget, notPage]
      · exact ⟨headed, fun _ _ => rfl⟩

/-- The block is put where it belongs, if there is a page behind it. -/
theorem freePage_spec (ring : area.nodes.IsRing .head ((front ++ target :: back).map .page))
    (sorted : (front ++ (List.range' page n ++ target :: back)).Pairwise (· < ·))
    (headed : Headed area.freePages (front ++ target :: back))
    (zero : ∀ q ∈ List.range' (page + 1) (n - 1), area.freePages q = 0)
    (positive : 0 < n) (enough : (front ++ target :: back).length < fuel) :
    ∃ after, area.freePage fuel page n = some after ∧
      after.nodes.IsRing .head ((front ++ (List.range' page n ++ target :: back)).map .page) ∧
      after.freePageNum = area.freePageNum + n ∧
      Headed after.freePages (front ++ (List.range' page n ++ target :: back)) ∧
      (∀ q ∉ front ++ (List.range' page n ++ target :: back),
        after.freePages q = area.freePages q) ∧
      after.freePages = joinUp (joinDown area.freePages page n target) page front.getLast? ∧
      area.nodes.AgreeOff after.nodes
        (.head :: (front ++ (List.range' page n ++ target :: back)).map .page) := by
  have nodup := sorted.imp Nat.ne_of_lt
  have inRun : page ∈ List.range' page n := by
    rw [List.mem_range'_1]
    omega
  have below : ∀ q ∈ front, q < page := by
    intro q member
    exact (List.pairwise_append.mp sorted).2.2 q member page (List.mem_append_left _ inRun)
  have above : page < target := by
    have behind := (List.pairwise_append.mp sorted).2.1
    exact (List.pairwise_append.mp behind).2.2 page inRun target (by simp)
  have fresh : ∀ i < n, page + i ∉ front ++ target :: back := by
    intro i small member
    have member' : page + i ∈ List.range' page n := by
      rw [List.mem_range'_1]
      omega
    have parts := List.pairwise_append.mp sorted
    cases List.mem_append.mp member with
    | inl inFront =>
        have less := parts.2.2 _ inFront _ (List.mem_append_left _ member')
        omega
    | inr inBack =>
        have less := (List.pairwise_append.mp parts.2.1).2.2 _ member' _ inBack
        omega
  have found : loop (walk area.nodes .head (visitTarget page) id) fuel
      (area.nodes.next .head, none) = some (some target) := by
    rw [loop_walk_ring ring none (by simpa using enough), scan_visitTarget below above]
  rw [freePage, found]
  refine ⟨_, rfl, ?_⟩
  let inserted : FreeArea := { area with
    nodes := insertPages area.nodes (.page target) page n
    flags := Function.update area.flags page 0
    freePages := Function.update area.freePages page n
    freePageNum := area.freePageNum + n }
  have outsideOld : page ∉ front ++ target :: back := by simpa using fresh 0 positive
  have insertedRing := insertPages_ring ring fresh
  have insertedHeaded : Headed inserted.freePages
      (front ++ (List.range' page n ++ target :: back)) := by
    have kept : Headed inserted.freePages (front ++ target :: back) := by
      apply headed.congr
      intro q member
      exact Function.update_of_ne (ne_of_mem_of_not_mem member outsideOld) _ _
    apply kept.insert below above
    rw [← cons_range page positive, List.cons_append] at nodup ⊢
    have tail := (List.nodup_append.mp nodup).2.1
    exact headed_cons_run (List.prefix_append _ _) zero
      (headed_zeros zero headed.of_append) (List.nodup_cons.mp tail).1
  have size : inserted.freePages page = n := Function.update_self _ _ _
  have downHeaded := mergeDown_headed insertedHeaded sorted positive size
  have split : front ++ (List.range' page n ++ target :: back) =
      front ++ page :: (List.range' (page + 1) (n - 1) ++ target :: back) := by
    rw [← cons_range page positive, List.cons_append]
  have up := @mergeUp_headed front (List.range' (page + 1) (n - 1) ++ target :: back) page
    (inserted.mergeDown page n target)
    (by rw [← split, mergeDown_nodes]; exact insertedRing) (by rw [← split]; exact downHeaded)
    (by rw [← split]; exact sorted)
  rw [← split] at up
  refine ⟨by simpa using insertedRing, by simp, up.1, ?_, ?_,
    by simpa using insertPages_agreeOff ring fresh⟩
  · intro q outside
    have notPage : q ≠ page := fun same => outside (by rw [same]; simp [inRun])
    have notTarget : q ≠ target := fun same => outside (by simp [same])
    calc (((inserted.mergeDown page n target).mergeUp page).freePages q)
        = (inserted.mergeDown page n target).freePages q := up.2 q outside
      _ = inserted.freePages q := mergeDown_other notPage notTarget
      _ = area.freePages q := Function.update_of_ne notPage _ _
  · have down : (inserted.mergeDown page n target).freePages =
        joinDown area.freePages page n target := by
      rw [mergeDown_freePages size]
      have apart : inserted.freePages target = area.freePages target :=
        Function.update_of_ne (by omega) _ _
      rw [apart]
      rfl
    have previous : (inserted.mergeDown page n target).nodes.prev (.page page) =
        (front.map PageNode.page).getLastD .head := by
      rw [mergeDown_nodes]
      rw [split, List.map_append, List.map_cons] at insertedRing
      exact insertedRing.prev_member
    show ((inserted.mergeDown page n target).mergeUp page).freePages = _
    rw [mergeUp_freePages, down, previous]
    cases List.eq_nil_or_concat front with
    | inl empty => simp [empty]
    | inr more =>
        obtain ⟨init, last, rfl⟩ := more
        simp

/-- If some page of the list begins a block of `n` pages, the first such page is returned. -/
def TakesFirstFit (area : FreeArea) (list : List Nat) (n : Nat) : Prop :=
  ∀ page, list.find? (fun p => n ≤ area.freePages p) = some page →
    ∃ fuel after, area.allocPage fuel n = some (some page, after)

theorem allocPage_first (ring : area.nodes.IsRing .head (list.map .page))
    (served : area.allocPage fuel n = some (some page, after)) :
    list.head? = some page ∧ n ≤ area.freePages page := by
  have search := @search_first n area list (list.length + 1) ring (Nat.lt_succ_self _)
  unfold allocPage at served
  split at served
  · cases served
  · obtain ⟨found, ended, result⟩ := Option.map_eq_some_iff.mp served
    have first := loop_unique ended search
    cases found with
    | none => cases result
    | some p =>
        cases result
        cases list with
        | nil => cases first
        | cons q back =>
            simp only at first
            split at first
            · rename_i large
              cases first
              exact ⟨rfl, large⟩
            · cases first

theorem allocPage_fits {rest : List Nat} (ring : area.nodes.IsRing .head ((page :: rest).map .page))
    (many : n ≤ area.freePageNum) (large : n ≤ area.freePages page) :
    ∃ fuel after, area.allocPage fuel n = some (some page, after) := by
  refine ⟨rest.length + 2, ?_⟩
  rw [allocPage, if_neg (Nat.not_lt.mpr many), search_first ring (by simp)]
  simp only [if_pos large]
  exact ⟨_, rfl⟩

/-- `alloc_page` takes the first block that is large enough exactly when that is the
first block of all, or when there is none. -/
theorem first_fit_of_first (ring : area.nodes.IsRing .head (list.map .page))
    (many : n ≤ area.freePageNum) :
    area.TakesFirstFit list n ↔
      (∀ p ∈ list, area.freePages p < n) ∨ ∃ p, list.head? = some p ∧ n ≤ area.freePages p := by
  constructor
  · intro takes
    cases fit : list.find? (fun p => n ≤ area.freePages p) with
    | none =>
        left
        intro p member
        simpa using List.find?_eq_none.mp fit p member
    | some page =>
        obtain ⟨fuel, after, served⟩ := takes page fit
        exact .inr ⟨page, allocPage_first ring served⟩
  · rintro (small | ⟨first, leads, large⟩) page fit
    · have fits : n ≤ area.freePages page := by simpa using List.find?_some fit
      have short := small page (List.mem_of_find?_eq_some fit)
      omega
    · cases list with
      | nil => cases leads
      | cons p rest =>
          cases leads
          rw [List.find?_cons_of_pos (by simpa using large)] at fit
          cases fit
          exact allocPage_fits ring many large

/-- The first of three pages. -/
theorem first_fit_of_first_page :
    (pageInit { next := id, prev := id } 3).TakesFirstFit (List.range' 0 3) 1 :=
  (first_fit_of_first (insertPages_head_ring listInit_ring) (by decide)).mpr
    (.inr ⟨0, rfl, by decide⟩)

/-- The first two of four pages are handed out and the first is given back: the block of
two behind it is not found. -/
theorem fragmented_list_refused :
    ∃ area list, ((((pageInit { next := id, prev := id } 4).allocPage 5 1).bind fun first =>
        first.2.allocPage 5 1).bind fun second => second.2.freePage 5 0 1) = some area ∧
      area.nodes.IsRing .head (list.map .page) ∧ 2 ≤ area.freePageNum ∧
      ¬ area.TakesFirstFit list 2 := by
  obtain ⟨area, ran, ring, many, fit⟩ : ∃ area,
      ((((pageInit { next := id, prev := id } 4).allocPage 5 1).bind fun first =>
        first.2.allocPage 5 1).bind fun second => second.2.freePage 5 0 1) = some area ∧
      area.nodes.IsRing .head ([0, 2, 3].map .page) ∧ 2 ≤ area.freePageNum ∧
      [0, 2, 3].find? (fun p => 2 ≤ area.freePages p) = some 2 :=
    ⟨_, rfl, ⟨by decide, ⟨rfl, rfl⟩, ⟨rfl, rfl⟩, ⟨rfl, rfl⟩, rfl, rfl⟩, by decide, by decide⟩
  refine ⟨area, [0, 2, 3], ran, ring, many, ?_⟩
  intro takes
  obtain ⟨fuel, after, served⟩ := takes 2 fit
  cases (allocPage_first ring served).1

end FreeArea

end WindOs.Mm
