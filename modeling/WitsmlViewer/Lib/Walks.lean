/-
# Walking a tree

A tree is given by the children of each node and a size that counts the nodes below.  A walk takes
the first node of a queue, puts its children at the end, and goes on; each node comes with its
position, the list of child numbers that leads to it.

`mem_walk`: a walk lists exactly the positions of the tree, each with the node that stands there.

The size is the fuel: a queue is worked off in as many steps as there are nodes below it.  That a
walk ends is therefore not a separate fact, and that it does not end too early is the content of
`mem_walk`.
-/
import Mathlib

namespace Walks

variable {ν : Type*} (children : ν → List ν)

/-! ## 1. Positions

A position is a path from the root.  Two nodes that are equal as trees are still at different
positions, which is what a statement about every occurrence in a tree needs. -/

/-- The node at a position below `n`. -/
def nodeAt (n : ν) : List ℕ → Option ν
  | [] => some n
  | i :: p => match (children n)[i]? with
    | none => none
    | some m => nodeAt m p

variable {children}

@[simp] theorem nodeAt_nil (n : ν) : nodeAt children n [] = some n := rfl

theorem nodeAt_cons {n m : ν} {i : ℕ} (h : (children n)[i]? = some m) (p : List ℕ) :
    nodeAt children n (i :: p) = nodeAt children m p := by
  rw [nodeAt, h]

/-- A path leads somewhere only if there is a child for each of its numbers. -/
theorem nodeAt_cons_eq_some {n x : ν} {i : ℕ} {p : List ℕ} :
    nodeAt children n (i :: p) = some x ↔
      ∃ m, (children n)[i]? = some m ∧ nodeAt children m p = some x := by
  rw [nodeAt]
  cases (children n)[i]? with
  | none => simp
  | some m => simp

/-- The children of the node at a position. -/
theorem nodeAt_append_singleton {n x : ν} {p : List ℕ} (h : nodeAt children n p = some x) (i : ℕ) :
    nodeAt children n (p ++ [i]) = (children x)[i]? := by
  induction p generalizing n with
  | nil =>
    obtain rfl := Option.some.inj h
    rw [List.nil_append, nodeAt]
    cases (children n)[i]? <;> rfl
  | cons j p ih =>
    obtain ⟨m, hm, h⟩ := nodeAt_cons_eq_some.mp h
    rw [List.cons_append, nodeAt_cons hm, ih h]

/-- A statement about all positions, at the root and below each child. -/
theorem forall_nodeAt_iff {n : ν} {P : List ℕ → ν → Prop} :
    (∀ p x, nodeAt children n p = some x → P p x) ↔
      P [] n ∧ ∀ i m, (children n)[i]? = some m →
        ∀ p x, nodeAt children m p = some x → P (i :: p) x := by
  constructor
  · intro h
    exact ⟨h [] n rfl, fun i m hm p x hx => h (i :: p) x ((nodeAt_cons hm p).trans hx)⟩
  · rintro ⟨hroot, hbelow⟩ p x hx
    cases p with
    | nil => exact Option.some.inj hx ▸ hroot
    | cons i p =>
      obtain ⟨m, hm, hx⟩ := nodeAt_cons_eq_some.mp hx
      exact hbelow i m hm p x hx

/-! ## 2. The walk

The order is breadth first, but nothing here depends on it.  What is kept along the walk is that
everything below the queue is still to come or has been listed. -/

variable (children)

/-- The children of a node, each at its own position. -/
def below (e : List ℕ × ν) : List (List ℕ × ν) :=
  (children e.2).zipIdx.map fun c => (e.1 ++ [c.2], c.1)

/-- Take the first of the queue and append its children, at most `fuel` times. -/
def walkFrom : ℕ → List (List ℕ × ν) → List (List ℕ × ν)
  | 0, _ => []
  | _ + 1, [] => []
  | fuel + 1, e :: todo => e :: walkFrom fuel (todo ++ below children e)

/-- The nodes of a tree, breadth first. -/
def walk (size : ν → ℕ) (n : ν) : List (List ℕ × ν) := walkFrom children (size n) [([], n)]

variable {children} {size : ν → ℕ}

/-- A child stands at its parent's position with its own number added. -/
theorem mem_below {e : List ℕ × ν} {p : List ℕ} {x : ν} :
    (p, x) ∈ below children e ↔ ∃ i, (children e.2)[i]? = some x ∧ p = e.1 ++ [i] := by
  simp only [below, List.mem_map, Prod.exists, List.mk_mem_zipIdx_iff_getElem?, Prod.mk.injEq]
  constructor
  · rintro ⟨m, i, hm, rfl, rfl⟩
    exact ⟨i, hm, rfl⟩
  · rintro ⟨i, hm, rfl⟩
    exact ⟨x, i, hm, rfl, rfl⟩

/-- The entries below a node have the sizes of its children. -/
theorem sum_size_below (e : List ℕ × ν) :
    ((below children e).map fun c => size c.2).sum = ((children e.2).map size).sum := by
  rw [below, List.map_map]
  have hfst : ((fun c : List ℕ × ν => size c.2) ∘ fun c : ν × ℕ => (e.1 ++ [c.2], c.1)) =
      size ∘ Prod.fst := rfl
  rw [hfst, ← List.map_map, List.zipIdx_map_fst]

/-- With enough fuel, everything below the queue is visited.

Taking a node from the queue and appending its children lowers the sum of the sizes by one, and so
does the fuel go down.  The induction is on the fuel, with the queue generalized. -/
theorem mem_walkFrom (hsize : ∀ n, size n = 1 + ((children n).map size).sum) {p : List ℕ} {x : ν} :
    ∀ {fuel : ℕ} {todo : List (List ℕ × ν)}, (todo.map fun e => size e.2).sum ≤ fuel →
      ((p, x) ∈ walkFrom children fuel todo ↔
        ∃ e ∈ todo, ∃ q, p = e.1 ++ q ∧ nodeAt children e.2 q = some x) := by
  intro fuel
  induction fuel with
  | zero =>
    intro todo hfuel
    have hnil : todo = [] := by
      cases todo with
      | nil => rfl
      | cons e todo =>
        have hpos := hsize e.2
        rw [List.map_cons, List.sum_cons] at hfuel
        omega
    simp [walkFrom, hnil]
  | succ fuel ih =>
    intro todo hfuel
    cases todo with
    | nil => simp [walkFrom]
    | cons e todo =>
      have hrest : ((todo ++ below children e).map fun e => size e.2).sum ≤ fuel := by
        rw [List.map_append, List.sum_append, sum_size_below]
        rw [List.map_cons, List.sum_cons, hsize e.2] at hfuel
        omega
      rw [walkFrom, List.mem_cons, ih hrest]
      constructor
      · rintro (heq | ⟨c, hc, q, rfl, hq⟩)
        · exact ⟨e, List.mem_cons_self, [], by simp [← heq], by simp [← heq]⟩
        · rcases List.mem_append.mp hc with hc | hc
          · exact ⟨c, List.mem_cons_of_mem _ hc, q, rfl, hq⟩
          · obtain ⟨i, hi, hp⟩ := mem_below.mp (show (c.1, c.2) ∈ _ from hc)
            refine ⟨e, List.mem_cons_self, i :: q, ?_, ?_⟩
            · rw [hp, List.append_assoc, List.singleton_append]
            · rw [nodeAt_cons hi, hq]
      · rintro ⟨c, hc, q, rfl, hq⟩
        rcases List.mem_cons.mp hc with rfl | hc
        · cases q with
          | nil =>
            left
            rw [List.append_nil, ← Option.some.inj hq]
          | cons i q =>
            right
            obtain ⟨m, hm, hq⟩ := nodeAt_cons_eq_some.mp hq
            refine ⟨(c.1 ++ [i], m), List.mem_append_right _ (mem_below.mpr ⟨i, hm, rfl⟩), q, ?_, hq⟩
            rw [List.append_assoc, List.singleton_append]
        · exact Or.inr ⟨c, List.mem_append_left _ hc, q, rfl, hq⟩

/-- **A walk lists the positions of the tree.**  A property that is checked along the walk is
therefore a property of every node, and the other way round. -/
theorem mem_walk (hsize : ∀ n, size n = 1 + ((children n).map size).sum) {n x : ν} {p : List ℕ} :
    (p, x) ∈ walk children size n ↔ nodeAt children n p = some x := by
  rw [walk, mem_walkFrom hsize (by simp)]
  simp

end Walks
