import WindOs.Data.Loop
import WindOs.Data.Ring

namespace WindOs.Data

universe u v w

/-! # Walking a linked list

Most loops over a list run `while (node != stop)`, look at one node a round and
take its `next`.  `walk` is the body of such a loop and `scan` the same search
over the sequence of nodes.
-/

variable {ν : Type u} {α : Type v} {β : Type w}

def walk [DecidableEq ν] (links : Links ν) (stop : ν) (visit : ν → α → α ⊕ β) (finish : α → β) :
    ν × α → (ν × α) ⊕ β
  | (node, acc) =>
      if node = stop then .inr (finish acc)
      else match visit node acc with
        | .inl next => .inl (links.next node, next)
        | .inr result => .inr result

def scan (visit : ν → α → α ⊕ β) (finish : α → β) : List ν → α → β
  | [], acc => finish acc
  | node :: nodes, acc =>
      match visit node acc with
      | .inl next => scan visit finish nodes next
      | .inr result => result

variable [DecidableEq ν] {links : Links ν} {visit : ν → α → α ⊕ β} {finish : α → β}

/-- `next` leads from the start along the nodes to the end; nothing is said of `prev`. -/
def Links.Trail {ν : Type u} (links : Links ν) : ν → List ν → ν → Prop
  | a, [], b => links.next a = b
  | a, x :: xs, b => links.next a = x ∧ Trail links x xs b

omit [DecidableEq ν] in
theorem Links.Path.trail {a b : ν} {xs : List ν} (path : links.Path a xs b) :
    links.Trail a xs b := by
  induction xs generalizing a with
  | nil => exact path.1
  | cons x xs ih => exact ⟨path.1.1, ih path.2⟩

/-- A walk along a trail ends, and finds what the scan of its nodes finds. -/
theorem loop_walk {start stop : ν} {nodes : List ν} (trail : links.Trail start nodes stop)
    (outside : stop ∉ nodes) (acc : α) {fuel : Nat} (enough : nodes.length < fuel) :
    loop (walk links stop visit finish) fuel (links.next start, acc) =
      some (scan visit finish nodes acc) := by
  induction nodes generalizing start acc fuel with
  | nil =>
      obtain ⟨fuel, rfl⟩ := Nat.exists_eq_add_of_lt enough
      have reached : links.next start = stop := trail
      apply loop_exit
      simp [walk, reached, scan]
  | cons node nodes ih =>
      obtain ⟨more, rfl⟩ := Nat.exists_eq_add_of_lt enough
      have reached : links.next start = node := trail.1
      have different : node ≠ stop := fun same => outside (by simp [same])
      rw [reached]
      cases visited : visit node acc with
      | inl next =>
          have round : walk links stop visit finish (node, acc) = .inl (links.next node, next) := by
            simp only [walk, if_neg different, visited]
          rw [loop_next round]
          simp only [scan, visited]
          apply ih trail.2 (fun member => outside (List.mem_cons_of_mem _ member))
          simp only [List.length_cons]
          omega
      | inr result =>
          have found : walk links stop visit finish (node, acc) = .inr result := by
            simp only [walk, if_neg different, visited]
          rw [loop_exit found]
          simp only [scan, visited]

/-- The same for a walk once round a ring. -/
theorem loop_walk_ring {head : ν} {nodes : List ν} (ring : links.IsRing head nodes) (acc : α)
    {fuel : Nat} (enough : nodes.length < fuel) :
    loop (walk links head visit finish) fuel (links.next head, acc) =
      some (scan visit finish nodes acc) :=
  loop_walk ring.path.trail (List.nodup_cons.mp ring.nodup).1 acc enough

end WindOs.Data
