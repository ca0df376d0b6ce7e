/-
# Series on one axis

Several series of points, each point at a key, are put side by side: the axis has every key that some
series has a point at, once and in ascending order of a rank, and each series becomes a column with a
cell for each key of the axis.  Points are written one by one, so the last one at a key stays.

* `axis_ascending`, `mem_axis`: the axis is the sorted set of the keys, if the rank tells keys apart;
* `column_eq`: a column has the value of the last point at each key of the axis.

The rank and the keys are kept apart because a key need not be ordered at all: what is compared on
the axis may be a number made from a text, or an instant made from a reading.  Where the rank does
not tell keys apart, `axis_ascending` says nothing, and two cells of the axis may stand at one
place.
-/
import WitsmlViewer.Lib.LastWins

namespace Alignment

open LastWins

variable {κ ι ρ β : Type*} [DecidableEq κ] [LinearOrder ι]

/-! ## 1. The axis

The set of the keys is built up by insertion, so that its order is that in which the series bring
the keys; only then is it sorted.  Membership and `Nodup` are what the sort needs to know, and both
are proved along the insertions. -/

/-- A set that keeps the order of insertion. -/
def insertAll (set : List κ) (keys : List κ) : List κ :=
  keys.foldl (fun set k => if k ∈ set then set else set ++ [k]) set

/-- A key is in the set afterwards if it was there or was inserted. -/
theorem mem_insertAll {keys : List κ} {k : κ} :
    ∀ {set : List κ}, k ∈ insertAll set keys ↔ k ∈ set ∨ k ∈ keys := by
  induction keys with
  | nil => simp [insertAll]
  | cons k' keys ih =>
    intro set
    rw [insertAll, List.foldl_cons]
    refine ih.trans ?_
    split
    · rename_i hk'
      rw [List.mem_cons]
      constructor
      · rintro (h | h)
        · exact Or.inl h
        · exact Or.inr (Or.inr h)
      · rintro (h | rfl | h)
        · exact Or.inl h
        · exact Or.inl hk'
        · exact Or.inr h
    · rw [List.mem_append, List.mem_singleton, List.mem_cons, or_assoc]

theorem nodup_insertAll {keys : List κ} :
    ∀ {set : List κ}, set.Nodup → (insertAll set keys).Nodup := by
  induction keys with
  | nil => exact fun h => h
  | cons k keys ih =>
    intro set h
    rw [insertAll, List.foldl_cons]
    split
    · exact ih h
    · rename_i hk
      exact ih (List.nodup_append.mpr ⟨h, List.nodup_singleton k, fun a ha b hb hab =>
        hk (by rwa [← List.mem_singleton.mp hb, ← hab])⟩)

/-- The keys of the series, in ascending order of their ranks. -/
def axis (rank : κ → ι) (series : List (List κ)) : List κ :=
  (series.foldl insertAll []).insertionSort fun a b => rank a ≤ rank b

/-- All series inserted: a key is in the set if some series has it. -/
theorem mem_foldl_insertAll {series : List (List κ)} {k : κ} :
    ∀ {set : List κ}, k ∈ series.foldl insertAll set ↔ k ∈ set ∨ ∃ keys ∈ series, k ∈ keys := by
  induction series with
  | nil => simp
  | cons keys series ih =>
    intro set
    rw [List.foldl_cons, ih, mem_insertAll, or_assoc, List.exists_mem_cons_iff]

/-- No key is in it twice, however many series share it. -/
theorem nodup_foldl_insertAll {series : List (List κ)} :
    ∀ {set : List κ}, set.Nodup → (series.foldl insertAll set).Nodup := by
  induction series with
  | nil => exact fun h => h
  | cons keys series ih => exact fun h => ih (nodup_insertAll h)

/-- **The axis has the keys of the series, and no others.** -/
theorem mem_axis {rank : κ → ι} {series : List (List κ)} {k : κ} :
    k ∈ axis rank series ↔ ∃ keys ∈ series, k ∈ keys := by
  rw [axis, List.mem_insertionSort, mem_foldl_insertAll]
  simp

/-- **The axis is strictly ascending**, if no two keys have one rank.

The sort leaves it ascending and free of repetitions; both together are strict only because keys
that are apart have ranks that are apart. -/
theorem axis_ascending {rank : κ → ι} {series : List (List κ)}
    (hinj : ∀ keys ∈ series, ∀ a ∈ keys, ∀ keys' ∈ series, ∀ b ∈ keys', rank a = rank b → a = b) :
    (axis rank series).Pairwise fun a b => rank a < rank b := by
  have hsorted : (axis rank series).Pairwise fun a b => rank a ≤ rank b :=
    List.pairwise_insertionSort (fun a b => rank a ≤ rank b) _
  have hnodup : (axis rank series).Nodup :=
    (List.perm_insertionSort _ _).nodup_iff.mpr (nodup_foldl_insertAll List.nodup_nil)
  refine (List.Pairwise.and_mem.mp (hsorted.and hnodup)).imp fun {a b} hab => ?_
  obtain ⟨ha, hb, hle, hne⟩ := hab
  obtain ⟨keys, hkeys, ha⟩ := mem_axis.mp ha
  obtain ⟨keys', hkeys', hb⟩ := mem_axis.mp hb
  exact lt_of_le_of_ne hle fun heq => hne (hinj keys hkeys a ha keys' hkeys' b hb heq)

/-! ## 2. Columns

A column is filled cell by cell and later points write over earlier ones.  Which value stays is a
fact about the last point of each key alone, and this is the form in which `LastWins` speaks of it.
-/

/-- The cells of a series: each point is written at the place of its key on the axis. -/
def column (axis : List κ) (key : ρ → κ) (value : ρ → Option β) (points : List ρ) :
    List (Option β) :=
  points.foldl (fun cells p => (axis.idxOf? (key p)).elim cells fun i => cells.set i (value p))
    (List.replicate axis.length none)

section Column

variable {axis : List κ} {key : ρ → κ} {value : ρ → Option β}

/-- A write changes one cell.  The axis has each key once, so that the cell found by the key is the
only one of this key. -/
theorem set_idxOf (hnodup : axis.Nodup) (cell : κ → Option β) (k : κ) (v : Option β) :
    ((axis.idxOf? k).elim (axis.map cell) fun i => (axis.map cell).set i v) =
      axis.map (Function.update cell k v) := by
  cases hplace : axis.idxOf? k with
  | none =>
    have hk : k ∉ axis := List.idxOf?_eq_none_iff.mp hplace
    refine List.map_congr_left fun x hx => (Function.update_of_ne ?_ _ _).symm
    rintro rfl
    exact hk hx
  | some i =>
    obtain ⟨hi, hkey, -⟩ := List.findIdx?_eq_some_iff_getElem.mp hplace
    have hkey : axis[i] = k := by simpa using hkey
    rw [Option.elim_some]
    refine List.ext_getElem (by simp) fun j hj hj' => ?_
    rw [List.getElem_set, List.getElem_map, List.getElem_map]
    split
    · rename_i hij
      subst hij
      rw [hkey, Function.update_self]
    · rename_i hij
      rw [Function.update_of_ne]
      rintro hjk
      exact hij (hnodup.getElem_inj_iff.mp (hkey.trans hjk.symm))

/-- The last point at a key, of a first one and of others. -/
theorem lastOf_cons (p : ρ) (points : List ρ) (k : κ) :
    lastOf (fun p => some (key p)) (p :: points) k =
      (lastOf (fun p => some (key p)) points k).or (if key p = k then some p else none) := by
  have hsplit : lastOf (fun p => some (key p)) (p :: points) k =
      (lastOf (fun p => some (key p)) points k).or (lastOf (fun p => some (key p)) [p] k) :=
    lastOf_append [p] points k
  rw [hsplit]
  congr 1
  rw [lastOf, under]
  by_cases hk : key p = k
  · rw [if_pos hk, List.filter_cons_of_pos (by simp [hk])]
    rfl
  · rw [if_neg hk, List.filter_cons_of_neg (by simp [hk])]
    rfl

/-- **A column has the value of the last point at each key.**

Points at keys that are not on the axis write nowhere; they cannot occur when the series is one
that the axis was made from, and the lemma does not assume it.  The induction is on the points,
from the front, with the cells written so far generalized. -/
theorem column_eq (hnodup : axis.Nodup) (points : List ρ) : column axis key value points =
    axis.map fun k => (lastOf (fun p => some (key p)) points k).bind value := by
  have hwrites : ∀ (points : List ρ) (cell : κ → Option β),
      points.foldl (fun cells p => (axis.idxOf? (key p)).elim cells fun i => cells.set i (value p))
        (axis.map cell) = axis.map fun k =>
          (lastOf (fun p => some (key p)) points k).elim (cell k) value := by
    intro points
    induction points with
    | nil => exact fun cell => rfl
    | cons p points ih =>
      intro cell
      rw [List.foldl_cons, set_idxOf hnodup, ih]
      refine List.map_congr_left fun k _ => ?_
      rw [lastOf_cons]
      cases lastOf (fun p => some (key p)) points k with
      | some q => rfl
      | none =>
        by_cases hk : key p = k
        · subst hk
          simp
        · simp [hk, Function.update_of_ne (Ne.symm hk)]
  have hstart : List.replicate axis.length (none : Option β) = axis.map fun _ => none := by
    rw [List.map_const']
  rw [column, hstart, hwrites]
  refine List.map_congr_left fun k _ => ?_
  cases lastOf (fun p => some (key p)) points k <;> rfl

end Column

end Alignment
