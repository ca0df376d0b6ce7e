/-
# Bands laid edge to edge

A row of bands, each with its left edge and its width.  `layout` places bands of given widths one
after another, with a running cursor.

* `edgeToEdge_layout`: each band begins where the one before it ends;
* `EdgeToEdge.apart`: bands that are not of negative width do not overlap;
* `sum_shares`: shares of a total add up to as much of the width as the weights are of the total.

The widths are of any ordered group, and shares of any field.  Floating-point arithmetic is
neither: there a running cursor and a sum of shares are each off by some units in the last place,
and what is said here holds up to that.
-/
import Mathlib

namespace Bands

variable {K : Type*}

/-- Bands of these widths, the first from `x` on. -/
def layout [Add K] (x : K) : List K → List (K × K)
  | [] => []
  | w :: ws => (x, w) :: layout (x + w) ws

/-- Each band begins where the one before it ends, the first at `x`. -/
def EdgeToEdge [Add K] (x : K) : List (K × K) → Prop
  | [] => True
  | b :: bs => b.1 = x ∧ EdgeToEdge (x + b.2) bs

/-- What is laid out stands edge to edge, whatever the widths are. -/
theorem edgeToEdge_layout [Add K] (x : K) (ws : List K) : EdgeToEdge x (layout x ws) := by
  induction ws generalizing x with
  | nil => trivial
  | cons w ws ih => exact ⟨rfl, ih (x + w)⟩

/-- The bands have the widths that they were given. -/
theorem layout_widths [Add K] (x : K) (ws : List K) : (layout x ws).map Prod.snd = ws := by
  induction ws generalizing x with
  | nil => rfl
  | cons w ws ih => rw [layout, List.map_cons, ih]

section Ordered

variable [AddCommGroup K] [LinearOrder K] [IsOrderedAddMonoid K]

/-- All bands are on the right of the cursor.  This is the half of the ordering that looks ahead;
the cursor only moves to the right because no width is negative. -/
theorem EdgeToEdge.le {x : K} {bs : List (K × K)} (h : EdgeToEdge x bs) (hw : ∀ b ∈ bs, 0 ≤ b.2) :
    ∀ b ∈ bs, x ≤ b.1 := by
  induction bs generalizing x with
  | nil => exact fun b hb => absurd hb List.not_mem_nil
  | cons a bs ih =>
    obtain ⟨ha, hbs⟩ := h
    intro b hb
    rcases List.mem_cons.mp hb with rfl | hb
    · exact ha.ge
    · have hright := ih hbs (fun b hb => hw b (List.mem_cons_of_mem a hb)) b hb
      exact (le_add_of_nonneg_right (hw a List.mem_cons_self)).trans hright

/-- **Bands laid edge to edge do not overlap.**

For any two bands, not only neighbours: each ends where the next begins, and all later ones are on
the right of that. -/
theorem EdgeToEdge.apart {x : K} {bs : List (K × K)} (h : EdgeToEdge x bs)
    (hw : ∀ b ∈ bs, 0 ≤ b.2) : bs.Pairwise fun a b => a.1 + a.2 ≤ b.1 := by
  induction bs generalizing x with
  | nil => exact List.Pairwise.nil
  | cons a bs ih =>
    obtain ⟨rfl, hbs⟩ := h
    have hwidths : ∀ b ∈ bs, 0 ≤ b.2 := fun b hb => hw b (List.mem_cons_of_mem a hb)
    exact List.Pairwise.cons (hbs.le hwidths) (ih hbs hwidths)

end Ordered

/-- **Shares of a total.**  They fill the width when the weights add up to the total, and miss it
in the same proportion when they do not. -/
theorem sum_shares [Field K] {ι : Type*} (total width : K) (weight : ι → K) (l : List ι) :
    (l.map fun i => weight i / total * width).sum = (l.map weight).sum / total * width := by
  simp only [div_eq_mul_inv, mul_assoc]
  exact List.sum_map_mul_right _ _ _

end Bands
