/-
# The newest part of a series, from two ends

A series is a list in strictly ascending order of a rank.  A reader knows its elements by a coarser
key only: the key ascends with the rank, but neighbours may share it.  From a list of elements the
reader keeps the first of each key, sorts them by the key, and takes the last `n` (`newest`).

`newest_ends_iff`: read from a suffix of the series, cut off at `n`, and then from a prefix of it,
this gives the last `n` elements of the series exactly in two cases.  Either the suffix has them,
with distinct keys, or the two ends meet, and none of the last `n` elements shares its key with an
earlier one.

The two ends are what a bounded buffer and a bounded file have in common: the one forgets at the
front, the other has not been written at the back.  Nothing is said about how they come to be; only
that both are cut from one series, and that the reader cannot see the rank.
-/
import Mathlib
import WitsmlViewer.Lib.GrowingTable

namespace Backfill

open GrowingTable

variable {α κ ρ : Type*} [LinearOrder κ] [LinearOrder ρ] {key : α → κ} {rank : α → ρ}

/-! ## 1. The first of each key

The first of each key and not the last: what is read from the suffix comes first, and what the
prefix adds must not replace it. -/

/-- Keep the first element of each key. -/
def firstPer (key : α → κ) (l : List α) : List α :=
  l.foldl (fun kept x => if kept.any fun y => key y = key x then kept else kept ++ [x]) []

/-- An element at the end is kept if its key is new. -/
theorem firstPer_append_singleton (l : List α) (x : α) : firstPer key (l ++ [x]) =
    if (firstPer key l).any fun y => key y = key x then firstPer key l
    else firstPer key l ++ [x] := by
  rw [firstPer, List.foldl_append]
  rfl

theorem firstPer_subset (l : List α) : firstPer key l ⊆ l := by
  induction l using List.reverseRecOn with
  | nil => exact List.Subset.refl _
  | append_singleton l x ih =>
    intro d hd
    rw [firstPer_append_singleton] at hd
    split at hd
    · exact List.mem_append_left _ (ih hd)
    · rcases List.mem_append.mp hd with hd | hd
      · exact List.mem_append_left _ (ih hd)
      · exact List.mem_append_right _ hd

variable (key) in
/-- Every key is kept, by some element.  It need not be the one in hand. -/
theorem exists_mem_firstPer {l : List α} {x : α} (hx : x ∈ l) :
    ∃ y ∈ firstPer key l, key y = key x := by
  induction l using List.reverseRecOn with
  | nil => simp at hx
  | append_singleton l z ih =>
    rw [firstPer_append_singleton]
    split
    · rename_i hseen
      rcases List.mem_append.mp hx with hx | hx
      · exact ih hx
      · rw [List.mem_singleton.mp hx]
        simpa using hseen
    · rcases List.mem_append.mp hx with hx | hx
      · obtain ⟨y, hy, hk⟩ := ih hx
        exact ⟨y, List.mem_append_left _ hy, hk⟩
      · exact ⟨x, List.mem_append_right _ hx, rfl⟩

/-- No key is kept twice. -/
theorem pairwise_firstPer (l : List α) : (firstPer key l).Pairwise fun a b => key a ≠ key b := by
  induction l using List.reverseRecOn with
  | nil => exact List.Pairwise.nil
  | append_singleton l x ih =>
    rw [firstPer_append_singleton]
    split
    · exact ih
    · rename_i hfresh
      refine List.pairwise_append.mpr ⟨ih, List.pairwise_singleton _ _, ?_⟩
      intro a ha b hb heq
      rw [List.mem_singleton.mp hb] at heq
      exact hfresh (List.any_eq_true.mpr ⟨a, ha, by simpa using heq⟩)

/-- Of two lists the second adds what has a new key.  New means: not a key of the first list at
all, whether or not the first list kept the element it belongs to. -/
theorem mem_firstPer_append {l m : List α} {d : α} : d ∈ firstPer key (l ++ m) ↔
    d ∈ firstPer key l ∨ d ∈ firstPer key m ∧ ∀ y ∈ l, key y ≠ key d := by
  induction m using List.reverseRecOn with
  | nil => simp [firstPer]
  | append_singleton m x ih =>
    -- what has been seen of the whole has been seen of one of its parts
    have hseen : ((firstPer key (l ++ m)).any fun y => key y = key x) = true ↔
        (∃ y ∈ l, key y = key x) ∨ ((firstPer key m).any fun y => key y = key x) = true := by
      simp only [List.any_eq_true, decide_eq_true_eq]
      constructor
      · rintro ⟨y, hy, hk⟩
        rcases List.mem_append.mp (firstPer_subset _ hy) with hl | hm
        · exact Or.inl ⟨y, hl, hk⟩
        · obtain ⟨z, hz, hkz⟩ := exists_mem_firstPer key hm
          exact Or.inr ⟨z, hz, hkz.trans hk⟩
      · rintro (⟨y, hy, hk⟩ | ⟨y, hy, hk⟩)
        · obtain ⟨z, hz, hkz⟩ := exists_mem_firstPer key (List.mem_append_left m hy)
          exact ⟨z, hz, hkz.trans hk⟩
        · obtain ⟨z, hz, hkz⟩ :=
            exists_mem_firstPer key (List.mem_append_right l (firstPer_subset _ hy))
          exact ⟨z, hz, hkz.trans hk⟩
    rw [← List.append_assoc, firstPer_append_singleton, firstPer_append_singleton]
    by_cases hm : ((firstPer key m).any fun y => key y = key x) = true
    · rw [if_pos (hseen.mpr (Or.inr hm)), if_pos hm]
      exact ih
    · rw [if_neg hm]
      by_cases hl : ∃ y ∈ l, key y = key x
      · rw [if_pos (hseen.mpr (Or.inl hl)), ih, List.mem_append, List.mem_singleton]
        constructor
        · rintro (h | ⟨h, hne⟩)
          · exact Or.inl h
          · exact Or.inr ⟨Or.inl h, hne⟩
        · rintro (h | ⟨h | rfl, hne⟩)
          · exact Or.inl h
          · exact Or.inr ⟨h, hne⟩
          · obtain ⟨y, hy, hk⟩ := hl
            exact absurd hk (hne y hy)
      · rw [if_neg (fun h => (hseen.mp h).elim hl hm), List.mem_append, ih, List.mem_append,
          List.mem_singleton]
        constructor
        · rintro ((h | ⟨h, hne⟩) | rfl)
          · exact Or.inl h
          · exact Or.inr ⟨Or.inl h, hne⟩
          · exact Or.inr ⟨Or.inr rfl, fun y hy hk => hl ⟨y, hy, hk⟩⟩
        · rintro (h | ⟨h | rfl, hne⟩)
          · exact Or.inl (Or.inl h)
          · exact Or.inl (Or.inr ⟨h, hne⟩)
          · exact Or.inr rfl

/-- **From a series the elements are kept whose key no earlier one has.**

In a series *earlier* can be said with the rank, and then what is kept no longer depends on where
the list was cut, but for the elements before the cut. -/
theorem mem_firstPer_of_ordered {l : List α} (hl : Ordered rank l) {d : α} :
    d ∈ firstPer key l ↔ d ∈ l ∧ ∀ y ∈ l, rank y < rank d → key y ≠ key d := by
  induction l using List.reverseRecOn with
  | nil => simp [firstPer]
  | append_singleton l x ih =>
    obtain ⟨hinit, -, hlast⟩ := List.pairwise_append.mp hl
    have hx : ∀ y ∈ l, rank y < rank x := fun y hy => hlast y hy x (List.mem_singleton_self x)
    have hsingle : firstPer key [x] = [x] := rfl
    rw [mem_firstPer_append, ih hinit, hsingle]
    simp only [List.mem_append, List.mem_singleton]
    constructor
    · rintro (⟨hd, hne⟩ | ⟨rfl, hne⟩)
      · refine ⟨Or.inl hd, ?_⟩
        rintro y (hy | rfl) hlt
        · exact hne y hy hlt
        · exact absurd hlt (not_lt_of_gt (hx d hd))
      · refine ⟨Or.inr rfl, ?_⟩
        rintro y (hy | rfl) hlt
        · exact hne y hy
        · exact absurd hlt (lt_irrefl _)
    · rintro ⟨hd | rfl, hne⟩
      · exact Or.inl ⟨hd, fun y hy => hne y (Or.inl hy)⟩
      · exact Or.inr ⟨rfl, fun y hy => hne y (Or.inl hy) (hx y hy)⟩

/-! ## 2. The newest elements

The reader sorts by the key, not by the rank.  As the key ascends with the rank and no key is kept
twice, this is the order of the series again. -/

/-- The last `n` of the kept elements, sorted by their key. -/
def newest (key : α → κ) (n : ℕ) (l : List α) : List α :=
  ((firstPer key l).insertionSort fun a b => key a ≤ key b).rtake n

/-- The kept elements are in strict order of their keys once they are sorted. -/
theorem ordered_sorted (l : List α) :
    Ordered key ((firstPer key l).insertionSort fun a b => key a ≤ key b) := by
  have hle : ((firstPer key l).insertionSort fun a b => key a ≤ key b).Pairwise
      fun a b => key a ≤ key b := by
    have htotal : Std.Total fun a b : α => key a ≤ key b := ⟨fun a b => le_total (key a) (key b)⟩
    have htrans : IsTrans α fun a b => key a ≤ key b := ⟨fun _ _ _ hab hbc => le_trans hab hbc⟩
    exact List.pairwise_insertionSort _ _
  have hne : ((firstPer key l).insertionSort fun a b => key a ≤ key b).Pairwise
      fun a b => key a ≠ key b :=
    ((List.perm_insertionSort _ _).pairwise_iff fun h => h.symm).mpr (pairwise_firstPer l)
  exact hle.imp₂ (fun _ _ h h' => lt_of_le_of_ne h h') hne

section Series

variable {S : List α} {n : ℕ}

/-- The last `n` elements of a series follow all others. -/
theorem rank_lt_of_mem_rtake (hS : Ordered rank S) {y d : α} (hy : y ∈ S) (hyd : y ∉ S.rtake n)
    (hd : d ∈ S.rtake n) : rank y < rank d := by
  rw [← List.take_append_drop (S.length - n) S] at hS hy
  rcases List.mem_append.mp hy with hy | hy
  · exact (List.pairwise_append.mp hS).2.2 y hy d hd
  · exact absurd hy hyd

theorem rtake_subset : S.rtake n ⊆ S := List.drop_subset _ _

/-- The last `n` elements are all there are, or `n`. -/
theorem rtake_cases : S.rtake n = S ∨ (S.rtake n).length = n := by
  unfold List.rtake
  rcases Nat.le_total S.length n with h | h
  · left
    rw [Nat.sub_eq_zero_of_le h, List.drop_zero]
  · right
    rw [List.length_drop]
    omega

/-- A list that ends in `n` elements. -/
theorem rtake_append_of_length {l m : List α} (h : m.length = n) : (l ++ m).rtake n = m := by
  unfold List.rtake
  rw [List.length_append, h, Nat.add_sub_cancel]
  exact List.drop_left

/-- **The newest elements are the last `n` of the series exactly if each of those has been kept.**

If all are kept, nothing that comes after them in the order of keys can push them out, because
nothing comes after them in the series.  Conversely the last `n` elements of the result are among
the kept ones, by definition.  What remains open is which elements are kept, and this depends on
the two ends. -/
theorem newest_eq_iff (hS : Ordered rank S)
    (hmono : ∀ a ∈ S, ∀ b ∈ S, rank a ≤ rank b → key a ≤ key b) {l : List α} (hl : l ⊆ S) :
    newest key n l = S.rtake n ↔ ∀ d ∈ S.rtake n, d ∈ firstPer key l := by
  have hsorted : Ordered key ((firstPer key l).insertionSort fun a b => key a ≤ key b) :=
    ordered_sorted l
  have hmem : ∀ x, x ∈ (firstPer key l).insertionSort (fun a b => key a ≤ key b) ↔
      x ∈ firstPer key l := fun x => (List.perm_insertionSort _ _).mem_iff
  rw [newest]
  generalize (firstPer key l).insertionSort (fun a b => key a ≤ key b) = F at hsorted hmem
  have hF : ∀ x ∈ F, x ∈ S := fun x hx => hl (firstPer_subset l ((hmem x).mp hx))
  constructor
  · intro heq d hd
    rw [← heq] at hd
    exact (hmem d).mp (rtake_subset hd)
  · intro hkept
    have hD : ∀ d ∈ S.rtake n, d ∈ F := fun d hd => (hmem d).mpr (hkept d hd)
    -- elements of the sorted list that follow in the series follow by their key
    have hlt : ∀ a ∈ F, ∀ b ∈ F, rank a < rank b → key a < key b := by
      intro a ha b hb hab
      refine lt_of_le_of_ne (hmono a (hF a ha) b (hF b hb) hab.le) fun heq => ?_
      exact absurd (congrArg rank (hsorted.eq_of_key ha hb heq)) hab.ne
    classical
    have hsplit : F = (F.filter fun x => x ∉ S.rtake n) ++ S.rtake n := by
      refine hsorted.eq_of_mem_iff (List.pairwise_append.mpr
        ⟨hsorted.sublist List.filter_sublist, ?_, ?_⟩) fun x => ?_
      · have hDS : Ordered rank (S.rtake n) := hS.sublist (List.drop_sublist _ _)
        exact hDS.imp_of_mem fun ha hb hab => hlt _ (hD _ ha) _ (hD _ hb) hab
      · intro a ha b hb
        obtain ⟨ha, hout⟩ := List.mem_filter.mp ha
        exact hlt a ha b (hD b hb)
          (rank_lt_of_mem_rtake hS (hF a ha) (by simpa using hout) hb)
      · simp only [List.mem_append, List.mem_filter, decide_eq_true_eq]
        constructor
        · intro hx
          by_cases hxD : x ∈ S.rtake n
          · exact Or.inr hxD
          · exact Or.inl ⟨hx, hxD⟩
        · rintro (⟨hx, -⟩ | hx)
          · exact hx
          · exact hD x hx
    rcases rtake_cases (S := S) (n := n) with hall | hlen
    · -- the series has at most `n` elements
      have hnone : (F.filter fun x => x ∉ S.rtake n) = [] := by
        rw [List.filter_eq_nil_iff]
        intro x hx
        rw [hall]
        simpa using hF x hx
      rw [hnone, List.nil_append] at hsplit
      rw [hsplit]
      unfold List.rtake
      rw [List.length_drop, List.drop_drop]
      congr 1
      omega
    · conv_lhs => rw [hsplit]
      exact rtake_append_of_length hlen

/-! ## 3. Two ends

The suffix either has the last `n` elements or is too short for them.  In the first case the prefix
adds nothing that matters, and only equal keys inside the suffix can do harm; in the second case
the prefix must supply what is missing, and equal keys across the gap do harm as well. -/

/-- A short suffix belongs to the last `n` elements. -/
theorem suffix_subset_rtake {W : List α} (hW : W <:+ S) (h : W.length ≤ n) : W ⊆ S.rtake n := by
  obtain ⟨A, rfl⟩ := hW
  intro x hx
  unfold List.rtake
  rw [List.length_append, List.drop_append_of_le_length (by omega)]
  exact List.mem_append_right _ hx

/-- A long suffix has them all. -/
theorem suffix_rtake {W : List α} (hW : W <:+ S) (h : n ≤ W.length) : W.rtake n = S.rtake n := by
  obtain ⟨A, rfl⟩ := hW
  unfold List.rtake
  have hcut : (A ++ W).length - n = A.length + (W.length - n) := by
    rw [List.length_append]
    omega
  rw [hcut, ← List.drop_drop, List.drop_left]

/-- What is not in a suffix precedes it. -/
theorem rank_lt_of_mem_suffix (hS : Ordered rank S) {W : List α} (hW : W <:+ S) {x w : α}
    (hx : x ∈ S) (hxW : x ∉ W) (hw : w ∈ W) : rank x < rank w := by
  obtain ⟨A, rfl⟩ := hW
  rcases List.mem_append.mp hx with hx | hx
  · exact (List.pairwise_append.mp hS).2.2 x hx w hw
  · exact absurd hx hxW

/-- A suffix that has the last `n` elements keeps them exactly if their keys are distinct. -/
theorem newest_covered_iff (hS : Ordered rank S)
    (hmono : ∀ a ∈ S, ∀ b ∈ S, rank a ≤ rank b → key a ≤ key b) {H : List α} (hH : H ⊆ S) :
    newest key n (S.rtake n ++ H) = S.rtake n ↔ Ordered key (S.rtake n) := by
  have hD : Ordered rank (S.rtake n) := hS.sublist (List.drop_sublist _ _)
  have hsub : S.rtake n ++ H ⊆ S := List.append_subset.mpr ⟨rtake_subset, hH⟩
  rw [newest_eq_iff hS hmono hsub]
  constructor
  · intro hkept
    refine hD.imp_of_mem fun {a b} ha hb hab => ?_
    refine lt_of_le_of_ne (hmono a (rtake_subset ha) b (rtake_subset hb) hab.le) ?_
    rcases mem_firstPer_append.mp (hkept b hb) with hb' | ⟨-, hne⟩
    · exact ((mem_firstPer_of_ordered hD).mp hb').2 a ha hab
    · exact absurd rfl (hne b hb)
  · intro hkeys d hd
    refine mem_firstPer_append.mpr (Or.inl ((mem_firstPer_of_ordered hD).mpr ⟨hd, ?_⟩))
    intro y hy hlt heq
    exact absurd (congrArg rank (hkeys.eq_of_key hy hd heq)) hlt.ne

/-- A suffix that is too short leaves the rest to the prefix.

Among the last `n` elements is one that the suffix lacks, and only the prefix can have it.  A
prefix is closed downwards, so with this one it has all that come before. -/
theorem newest_gap_iff (hS : Ordered rank S)
    (hmono : ∀ a ∈ S, ∀ b ∈ S, rank a ≤ rank b → key a ≤ key b) {W H : List α} (hW : W <:+ S)
    (hH : H <+: S) (hshort : W.length < n) :
    newest key n (W ++ H) = S.rtake n ↔ (∀ x ∈ S, x ∈ H ∨ x ∈ W) ∧
      ∀ d ∈ S.rtake n, ∀ y ∈ S, rank y < rank d → key y < key d := by
  have hWD : W ⊆ S.rtake n := suffix_subset_rtake hW hshort.le
  have hWo : Ordered rank W := hS.sublist hW.sublist
  have hHo : Ordered rank H := hS.sublist hH.sublist
  have hsub : W ++ H ⊆ S := List.append_subset.mpr ⟨hW.subset, hH.subset⟩
  rw [newest_eq_iff hS hmono hsub]
  constructor
  · intro hkept
    -- a kept element that the suffix does not have comes from the prefix, under a new key
    have hfrom : ∀ e ∈ S.rtake n, e ∉ W → e ∈ H ∧
        (∀ z ∈ H, rank z < rank e → key z ≠ key e) ∧ ∀ z ∈ W, key z ≠ key e := by
      intro e he heW
      rcases mem_firstPer_append.mp (hkept e he) with h | ⟨h, hne⟩
      · exact absurd (firstPer_subset _ h) heW
      · exact ⟨firstPer_subset _ h, ((mem_firstPer_of_ordered hHo).mp h).2, hne⟩
    have hgap : ∀ y ∈ S, y ∉ S.rtake n → ∃ e ∈ S.rtake n, e ∉ W := by
      intro y hy hyD
      by_contra hall
      push Not at hall
      have hle : (S.rtake n).length ≤ W.length :=
        (List.subperm_of_subset (hS.nodup.sublist (List.drop_sublist _ _)) hall).length_le
      rcases rtake_cases (S := S) (n := n) with heq | hlen
      · exact hyD (by rw [heq]; exact hy)
      · omega
    have hmeet : ∀ x ∈ S, x ∈ H ∨ x ∈ W := by
      intro x hx
      by_cases hxW : x ∈ W
      · exact Or.inr hxW
      · refine Or.inl ?_
        by_cases hxD : x ∈ S.rtake n
        · exact (hfrom x hxD hxW).1
        · obtain ⟨e, he, heW⟩ := hgap x hx hxD
          have heH := (hfrom e he heW).1
          rw [List.prefix_iff_eq_take.mp hH] at heH ⊢
          exact hS.mem_take_of_le hx heH (rank_lt_of_mem_rtake hS hx hxD he).le
    refine ⟨hmeet, fun d hd y hy hlt => ?_⟩
    refine lt_of_le_of_ne (hmono y hy d (rtake_subset hd) hlt.le) fun heq => ?_
    by_cases hyW : y ∈ W
    · -- both are in the suffix
      have hdW : d ∈ W := by
        by_contra hdW
        exact absurd hlt (not_lt_of_gt (rank_lt_of_mem_suffix hS hW (rtake_subset hd) hdW hyW))
      rcases mem_firstPer_append.mp (hkept d hd) with h | ⟨-, hne⟩
      · exact ((mem_firstPer_of_ordered hWo).mp h).2 y hyW hlt heq
      · exact hne d hdW rfl
    · have hyH : y ∈ H := (hmeet y hy).resolve_right hyW
      by_cases hdW : d ∈ W
      · by_cases hyD : y ∈ S.rtake n
        · exact (hfrom y hyD hyW).2.2 d hdW heq.symm
        · -- between them is an element that the suffix does not have
          obtain ⟨e, he, heW⟩ := hgap y hy hyD
          have hye := rank_lt_of_mem_rtake hS hy hyD he
          have hed := rank_lt_of_mem_suffix hS hW (rtake_subset he) heW hdW
          have hle := hmono e (rtake_subset he) d (rtake_subset hd) hed.le
          refine (hfrom e he heW).2.1 y hyH hye (le_antisymm ?_ (heq ▸ hle))
          exact hmono y hy e (rtake_subset he) hye.le
      · exact (hfrom d hd hdW).2.1 y hyH hlt heq
  · rintro ⟨hmeet, hfresh⟩ d hd
    by_cases hdW : d ∈ W
    · refine mem_firstPer_append.mpr (Or.inl ((mem_firstPer_of_ordered hWo).mpr ⟨hdW, ?_⟩))
      exact fun y hy hlt => (hfresh d hd y (hW.subset hy) hlt).ne
    · have hdH : d ∈ H := (hmeet d (rtake_subset hd)).resolve_right hdW
      refine mem_firstPer_append.mpr (Or.inr ⟨(mem_firstPer_of_ordered hHo).mpr ⟨hdH, ?_⟩, ?_⟩)
      · exact fun y hy hlt => (hfresh d hd y (hH.subset hy) hlt).ne
      · intro y hy
        have hlt := rank_lt_of_mem_suffix hS hW (rtake_subset hd) hdW hy
        exact (hfresh y (hWD hy) d (rtake_subset hd) hlt).ne'

/-- **The newest elements read from two ends.**

The two cases are exact, so that the condition may be read as the list of what can go wrong: the
two ends do not meet, or two neighbours share a key and the reader drops the newer of them.  The
first is a matter of how much is kept at either end, the second of how finely keys are written
down. -/
theorem newest_ends_iff (hS : Ordered rank S)
    (hmono : ∀ a ∈ S, ∀ b ∈ S, rank a ≤ rank b → key a ≤ key b) {W H : List α} (hW : W <:+ S)
    (hH : H <+: S) :
    newest key n (W.rtake n ++ H) = S.rtake n ↔
      (n ≤ W.length ∧ Ordered key (S.rtake n)) ∨ ((∀ x ∈ S, x ∈ H ∨ x ∈ W) ∧
        ∀ d ∈ S.rtake n, ∀ y ∈ S, rank y < rank d → key y < key d) := by
  rcases Nat.lt_or_ge W.length n with hshort | hlong
  · have hall : W.rtake n = W := by
      unfold List.rtake
      rw [Nat.sub_eq_zero_of_le hshort.le, List.drop_zero]
    rw [hall, newest_gap_iff hS hmono hW hH hshort]
    exact ⟨Or.inr, fun h => h.resolve_left fun h' => absurd h'.1 (by omega)⟩
  · rw [suffix_rtake hW hlong, newest_covered_iff hS hmono hH.subset]
    constructor
    · exact fun h => Or.inl ⟨hlong, h⟩
    · rintro (⟨-, h⟩ | ⟨-, hfresh⟩)
      · exact h
      · have hD : Ordered rank (S.rtake n) := hS.sublist (List.drop_sublist _ _)
        exact hD.imp_of_mem fun ha hb hab => hfresh _ hb _ (rtake_subset ha) hab

end Series

end Backfill
