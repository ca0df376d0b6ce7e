/-
# Lists of rows under keys, where the last row of a key wins

Rows may have a key.  `lastOf key rows k` is the last row under `k`.  A list `Merges` the rows if it
has exactly the last row under each key, in strictly ascending order of the keys.

* `Merges.lastOf_eq`: under every key the merged list ends with the row that the rows end with, so
  filtering by the key (`lastOf_filter`) may come before the merge or after it;
* `Merges.eq_of_lastOf_eq`: rows with the same last row under every key have one merged list.

The merged list is described by what it has and how it is ordered, and not by how it is made.  Two
ways of making it, a dictionary filled from the left and then sorted, or a merge of sorted blocks,
then need no comparison with each other: each is compared with the description, and
`Merges.eq_of_lastOf_eq` does the rest.  Whatever laws a merge has, idempotence, a permutation of
its blocks, a merge of merges, are then laws of `lastOf`, where they are nearly evident.
-/
import Mathlib

namespace LastWins

variable {ρ κ : Type*} [DecidableEq κ] (key : ρ → Option κ)

/-- The rows under a key. -/
def under (rows : List ρ) (k : κ) : List ρ := rows.filter fun r => decide (key r = some k)

/-- The last row under a key. -/
def lastOf (rows : List ρ) (k : κ) : Option ρ := (under key rows k).getLast?

variable {key}

/-- A row is under a key if it has it. -/
theorem mem_under {rows : List ρ} {k : κ} {r : ρ} :
    r ∈ under key rows k ↔ r ∈ rows ∧ key r = some k := by
  rw [under, List.mem_filter, decide_eq_true_eq]

/-- A last row is one of the rows and has the key it is the last of. -/
theorem key_of_lastOf {rows : List ρ} {k : κ} {r : ρ} (h : lastOf key rows k = some r) :
    r ∈ rows ∧ key r = some k :=
  mem_under.mp (List.mem_of_getLast? h)

/-- Every row with a key has a last row under it. -/
theorem exists_lastOf {rows : List ρ} {k : κ} {r : ρ} (hr : r ∈ rows) (hk : key r = some k) :
    ∃ r', lastOf key rows k = some r' := by
  refine Option.ne_none_iff_exists'.mp fun hnone => ?_
  exact List.ne_nil_of_mem (mem_under.mpr ⟨hr, hk⟩) (List.getLast?_eq_none_iff.mp hnone)

/-- **Later rows win.**  The last row of a key is in the second list if the second list has one at
all. -/
theorem lastOf_append (rows rows' : List ρ) (k : κ) :
    lastOf key (rows ++ rows') k = (lastOf key rows' k).or (lastOf key rows k) := by
  rw [lastOf, under, List.filter_append, List.getLast?_append]
  rfl

theorem under_filter (p : ρ → Bool) (rows : List ρ) (k : κ) :
    under key (rows.filter p) k = (under key rows k).filter p := by
  rw [under, under, List.filter_filter, List.filter_filter]
  exact List.filter_congr fun r _ => Bool.and_comm _ _

/-- **A filter by the key keeps or drops the last row with the others.**  A filter that looked at
more than the key could drop the last row and bring an older one forward. -/
theorem lastOf_filter {p : ρ → Bool} (hp : ∀ r r', key r = key r' → p r = p r') (rows : List ρ)
    (k : κ) : lastOf key (rows.filter p) k = (lastOf key rows k).filter p := by
  rw [lastOf, under_filter, lastOf]
  rcases List.eq_nil_or_concat (under key rows k) with hnil | ⟨init, r, hinit⟩
  · rw [hnil]
    rfl
  · have hr : key r = some k := by
      have hmem : r ∈ under key rows k := by rw [hinit]; simp
      exact (mem_under.mp hmem).2
    -- all rows under the key have the same answer
    have hall : ∀ r' ∈ under key rows k, p r' = p r := fun r' hr' =>
      hp r' r ((mem_under.mp hr').2.trans hr.symm)
    by_cases hpr : p r = true
    · have hself : (under key rows k).filter p = under key rows k :=
        List.filter_eq_self.mpr fun r' hr' => (hall r' hr').trans hpr
      rw [hself, hinit]
      simp [Option.filter, hpr]
    · have hnone : (under key rows k).filter p = [] :=
        List.filter_eq_nil_iff.mpr fun r' hr' => by rwa [hall r' hr']
      rw [hnone, hinit]
      simp [Option.filter, hpr]

/-! ## Merged lists -/

variable (key) in
/-- `out` has the last row under each key, strictly ascending. -/
structure Merges (lt : κ → κ → Prop) (rows out : List ρ) : Prop where
  ascending : out.Pairwise fun a b => ∃ i j, key a = some i ∧ key b = some j ∧ lt i j
  keyed : ∀ r ∈ out, key r ≠ none
  last : ∀ k, under key out k = (lastOf key rows k).toList

namespace Merges

variable {lt : κ → κ → Prop} {rows rows' out out' : List ρ}

/-- A merged list ends under each key as the rows do: merging twice is merging once. -/
theorem lastOf_eq (h : Merges key lt rows out) : lastOf key out = lastOf key rows := by
  funext k
  rw [lastOf, h.last]
  cases lastOf key rows k <;> rfl

theorem mem_iff (h : Merges key lt rows out) {r : ρ} :
    r ∈ out ↔ ∃ k, lastOf key rows k = some r := by
  constructor
  · intro hr
    obtain ⟨k, hk⟩ := Option.ne_none_iff_exists'.mp (h.keyed r hr)
    have hunder := mem_under.mpr ⟨hr, hk⟩
    rw [h.last] at hunder
    exact ⟨k, Option.mem_toList.mp hunder⟩
  · rintro ⟨k, hk⟩
    have hmem : r ∈ under key out k := by
      rw [h.last, hk]
      exact List.mem_singleton_self r
    exact (mem_under.mp hmem).1

/-- **There is one merged list.**

Both lists have the same elements and are in strict order, and a strictly ordered list is
determined by its elements. -/
theorem eq_of_lastOf_eq (h : Merges key lt rows out) (h' : Merges key lt rows' out')
    (hasymm : ∀ i j, lt i j → ¬lt j i) (hlast : lastOf key rows = lastOf key rows') :
    out = out' := by
  have hboth : ∀ a b, (∃ i j, key a = some i ∧ key b = some j ∧ lt i j) →
      ¬∃ j i, key b = some j ∧ key a = some i ∧ lt j i := by
    rintro a b ⟨i, j, hi, hj, hij⟩ ⟨j', i', hj', hi', hji⟩
    obtain rfl := Option.some.inj (hi.symm.trans hi')
    obtain rfl := Option.some.inj (hj.symm.trans hj')
    exact hasymm i j hij hji
  have hirrefl : Std.Irrefl fun a b : ρ => ∃ i j, key a = some i ∧ key b = some j ∧ lt i j :=
    ⟨fun a haa => hboth a a haa haa⟩
  have hantisymm : Std.Antisymm fun a b : ρ => ∃ i j, key a = some i ∧ key b = some j ∧ lt i j :=
    ⟨fun a b hab hba => absurd hba (hboth a b hab)⟩
  refine h.ascending.eq_of_mem_iff h'.ascending fun r => ?_
  rw [h.mem_iff, h'.mem_iff, hlast]

/-- **A filter by the key commutes with the merge.**  One may cut a range out of the blocks or out
of the result. -/
theorem filter (h : Merges key lt rows out) {p : ρ → Bool}
    (hp : ∀ r r', key r = key r' → p r = p r') :
    Merges key lt (rows.filter p) (out.filter p) := by
  refine ⟨h.ascending.filter p, fun r hr => h.keyed r (List.mem_filter.mp hr).1, fun k => ?_⟩
  rw [under_filter, h.last, lastOf_filter hp]
  cases lastOf key rows k with
  | none => rfl
  | some r =>
    by_cases hpr : p r = true
    · simp [Option.filter, hpr]
    · simp [Option.filter, hpr]

end Merges

end LastWins
