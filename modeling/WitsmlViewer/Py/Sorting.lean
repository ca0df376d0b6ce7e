/-
# Python's `list.sort`

The sort that CPython applies to a list of fewer than 64 elements: it takes the run that the list
begins with, turned round if it descends, and puts every later element in its place by halving.
Longer lists are cut into such runs, which are then merged.  The difference cannot be seen when `<`
orders the elements, because then a stable sort has only one outcome (`listSort_eq`).

It is modelled all the same, because an index can be `nan`, and `nan` is not in order with anything.
Beside it the outcome depends on the comparisons that are made.  What the development needs of that
case holds of runs and of their merges alike: no element is lost (`listSort_perm`), and an element
that is never less and never greater stays in front if it was there, and does not get there otherwise
(`head_listSort_iff`).
-/
import Mathlib.Data.List.Chain
import Mathlib.Data.List.Sort
import Mathlib.Order.Defs.LinearOrder

namespace Py

section ListSort

variable {α : Type} (lt : α → α → Bool)

/-! ## 1. The algorithm

A run is found by comparing neighbours, and an insertion halves the sorted part.  Both compare with
`<` only, and the element that comes later in the list is always the left operand; with `nan` among
the elements this is what decides the outcome. -/

/-- The elements that go on with a run, each of them related to the one before it. -/
def takeRun (more : α → α → Bool) : α → List α → List α × List α
  | _, [] => ([], [])
  | prev, x :: xs =>
    if more prev x then (x :: (takeRun more x xs).1, (takeRun more x xs).2) else ([], x :: xs)

/-- `count_run`, and the reversal of a run that descends: the first run of a list in ascending order,
and what follows it.  Only a strictly descending run is turned round, so equal elements stay as they
are. -/
def firstRun : List α → List α × List α
  | x :: y :: ys =>
    if lt y x then
      ((x :: y :: (takeRun (fun a b => lt b a) y ys).1).reverse, (takeRun (fun a b => lt b a) y ys).2)
    else (x :: y :: (takeRun (fun a b => !lt b a) y ys).1, (takeRun (fun a b => !lt b a) y ys).2)
  | xs => (xs, [])

/-- `binarysort` for one element: it goes to the left half of a stretch if it is less than the middle,
and otherwise to the right half, until nothing is left of the stretch.  The first argument bounds the
number of halvings. -/
def insertPivot (pivot : α) : ℕ → List α → List α
  | 0, xs => xs ++ [pivot]
  | fuel + 1, xs =>
    match xs.drop (xs.length / 2) with
    | [] => [pivot]
    | mid :: after =>
      if lt pivot mid then insertPivot pivot fuel (xs.take (xs.length / 2)) ++ mid :: after
      else xs.take (xs.length / 2) ++ mid :: insertPivot pivot fuel after

/-- `list.sort`. -/
def listSort (xs : List α) : List α :=
  (firstRun lt xs).2.foldl (fun sorted x => insertPivot lt x sorted.length sorted) (firstRun lt xs).1

/-! ## 2. Nothing is lost

Every step moves elements and none drops or doubles one.  This holds for any relation whatever, so
that a comparison which makes no sense can spoil the order and nothing else. -/

variable {lt}

theorem takeRun_append (more : α → α → Bool) (prev : α) (xs : List α) :
    (takeRun more prev xs).1 ++ (takeRun more prev xs).2 = xs := by
  induction xs generalizing prev with
  | nil => rfl
  | cons x xs ih =>
    rw [takeRun]
    split
    · simp only [List.cons_append, ih]
    · rfl

/-- Each element of the run is related to the one before it. -/
theorem takeRun_chain {more : α → α → Bool} {prev : α} {xs : List α} :
    (prev :: (takeRun more prev xs).1).IsChain fun a b => more a b = true := by
  induction xs generalizing prev with
  | nil => simp [takeRun]
  | cons x xs ih =>
    rw [takeRun]
    split
    · rename_i h
      exact List.isChain_cons_cons.mpr ⟨h, ih⟩
    · simp

/-- The first run and what follows it have the elements of the list. -/
theorem firstRun_perm (xs : List α) : ((firstRun lt xs).1 ++ (firstRun lt xs).2).Perm xs := by
  match xs with
  | [] => rfl
  | [x] => rfl
  | x :: y :: ys =>
    rw [firstRun]
    split
    · refine ((List.reverse_perm _).append_right _).trans ?_
      simp only [List.cons_append, takeRun_append]
      exact List.Perm.refl _
    · simp only [List.cons_append, takeRun_append]
      exact List.Perm.refl _

theorem insertPivot_perm (pivot : α) (fuel : ℕ) (xs : List α) :
    (insertPivot lt pivot fuel xs).Perm (pivot :: xs) := by
  induction fuel generalizing xs with
  | zero => exact List.perm_append_singleton pivot xs
  | succ fuel ih =>
    have hsplit := List.take_append_drop (xs.length / 2) xs
    rw [insertPivot]
    split
    · rename_i hnil
      have hlen : xs.length / 2 = xs.length := by
        have := List.drop_eq_nil_iff.mp hnil
        omega
      obtain rfl : xs = [] := List.length_eq_zero_iff.mp (by omega)
      exact List.Perm.refl _
    · rename_i mid after hdrop
      rw [hdrop] at hsplit
      split
      · calc
          (insertPivot lt pivot fuel (xs.take (xs.length / 2)) ++ mid :: after).Perm
              (pivot :: xs.take (xs.length / 2) ++ mid :: after) := (ih _).append_right _
          _ = pivot :: xs := by rw [List.cons_append, hsplit]
      · calc
          (xs.take (xs.length / 2) ++ mid :: insertPivot lt pivot fuel after).Perm
              (xs.take (xs.length / 2) ++ mid :: pivot :: after) :=
            ((ih after).cons mid).append_left _
          _ |>.Perm (xs.take (xs.length / 2) ++ pivot :: mid :: after) :=
            (List.Perm.swap pivot mid after).append_left _
          _ |>.Perm (pivot :: (xs.take (xs.length / 2) ++ mid :: after)) := List.perm_middle
          _ = pivot :: xs := by rw [hsplit]

theorem foldl_insertPivot_perm (rest sorted : List α) :
    (rest.foldl (fun sorted x => insertPivot lt x sorted.length sorted) sorted).Perm
      (sorted ++ rest) := by
  induction rest generalizing sorted with
  | nil => simp
  | cons x rest ih =>
    refine (ih _).trans (((insertPivot_perm x _ sorted).append_right rest).trans ?_)
    exact List.perm_middle.symm

/-- **A sorted list has the elements of the list.** -/
theorem listSort_perm (xs : List α) : (listSort lt xs).Perm xs :=
  (foldl_insertPivot_perm _ _).trans (firstRun_perm xs)

/-! ## 3. Elements in order

The algorithm is not followed any further here.  It is enough that each of its steps keeps two
things, that the list is sorted by the key and that the elements of one key are in the order they
came; there is only one such list. -/

section Ordered

variable {κ : Type} [LinearOrder κ] {key : α → κ}

/-- A list that is sorted by a key is determined by its elements of each key. -/
theorem eq_of_filter_key_eq {xs ys : List α} (hxs : xs.Pairwise fun a b => key a ≤ key b)
    (hys : ys.Pairwise fun a b => key a ≤ key b)
    (h : ∀ k, xs.filter (fun a => key a = k) = ys.filter fun a => key a = k) : xs = ys := by
  have hmem : ∀ {us vs : List α}, (∀ k, us.filter (fun a => key a = k) =
      vs.filter fun a => key a = k) → ∀ a ∈ us, a ∈ vs := by
    intro us vs huv a ha
    have hin : a ∈ us.filter fun b => key b = key a := List.mem_filter.mpr ⟨ha, by simp⟩
    rw [huv] at hin
    exact (List.mem_filter.mp hin).1
  induction xs generalizing ys with
  | nil =>
    cases ys with
    | nil => rfl
    | cons b ys => exact absurd (hmem (fun k => (h k).symm) b List.mem_cons_self) List.not_mem_nil
  | cons a xs ih =>
    cases ys with
    | nil => exact absurd (hmem h a List.mem_cons_self) List.not_mem_nil
    | cons b ys =>
      have hle : ∀ {c : α} {us : List α}, (c :: us).Pairwise (fun a b => key a ≤ key b) →
          ∀ e ∈ c :: us, key c ≤ key e := by
        intro c us hus e he
        rcases List.mem_cons.mp he with rfl | he
        · exact le_refl _
        · exact (List.pairwise_cons.mp hus).1 e he
      -- both heads have the least key, so each is the first element of that key
      have hkey : key a = key b := le_antisymm
        (hle hxs b (hmem (fun k => (h k).symm) b List.mem_cons_self))
        (hle hys a (hmem h a List.mem_cons_self))
      have hhead := h (key a)
      simp only [List.filter_cons, decide_true, hkey, if_true, List.cons.injEq] at hhead
      obtain ⟨rfl, -⟩ := hhead
      refine congrArg (a :: ·) (ih (List.pairwise_cons.mp hxs).2 (List.pairwise_cons.mp hys).2
        fun k => ?_)
      have hk := h k
      simp only [List.filter_cons] at hk
      split at hk
      · exact (List.cons.inj hk).2
      · exact hk

/-- The elements of one key keep their order in Mathlib's sort. -/
theorem filter_insertionSort (xs : List α) (k : κ) :
    (xs.insertionSort fun a b => key a ≤ key b).filter (fun a => key a = k) =
      xs.filter fun a => key a = k := by
  have hsame : (xs.filter fun a => key a = k).Pairwise fun a b => key a ≤ key b := by
    refine List.pairwise_of_forall_mem_list fun a ha b hb => ?_
    simp only [List.mem_filter, decide_eq_true_eq] at ha hb
    rw [ha.2, hb.2]
  have hsub := (List.sublist_insertionSort hsame List.filter_sublist).filter fun a => key a = k
  rw [List.filter_filter] at hsub
  simp only [Bool.and_self] at hsub
  exact (hsub.eq_of_length
    (((List.perm_insertionSort _ xs).filter fun a => key a = k).length_eq.symm)).symm

/-- A pivot goes behind the elements that it is not less than. -/
theorem insertPivot_eq {pivot : α} {fuel : ℕ} {xs : List α}
    (hlt : ∀ a ∈ xs, lt pivot a = decide (key pivot < key a)) (hfuel : xs.length ≤ fuel)
    (hxs : xs.Pairwise fun a b => key a ≤ key b) :
    insertPivot lt pivot fuel xs =
      xs.filter (fun a => key a ≤ key pivot) ++ pivot :: xs.filter fun a => key pivot < key a := by
  induction fuel generalizing xs with
  | zero =>
    obtain rfl : xs = [] := List.length_eq_zero_iff.mp (by omega)
    rfl
  | succ fuel ih =>
    have hsplit := List.take_append_drop (xs.length / 2) xs
    rw [insertPivot]
    split
    · rename_i hnil
      have := List.drop_eq_nil_iff.mp hnil
      obtain rfl : xs = [] := List.length_eq_zero_iff.mp (by omega)
      rfl
    · rename_i mid after hdrop
      have hlen : (mid :: after).length = xs.length - xs.length / 2 := by
        rw [← hdrop, List.length_drop]
      set before := xs.take (xs.length / 2) with hbefore
      have hbeforeLen : before.length = xs.length / 2 := by
        rw [hbefore, List.length_take]
        omega
      rw [hdrop] at hsplit
      rw [← hsplit] at hlt hxs ⊢
      rw [List.length_cons] at hlen
      obtain ⟨hbeforeSorted, hrest, hcross⟩ := List.pairwise_append.mp hxs
      obtain ⟨hmid, hafterSorted⟩ := List.pairwise_cons.mp hrest
      rw [hlt mid (by simp)]
      by_cases hless : key pivot < key mid
      · -- everything from the middle on is greater than the pivot
        have hgreater : ∀ a ∈ mid :: after, key pivot < key a := by
          intro a ha
          rcases List.mem_cons.mp ha with rfl | ha
          · exact hless
          · exact hless.trans_le (hmid a ha)
        have hlow : (mid :: after).filter (fun a => decide (key a ≤ key pivot)) = [] :=
          List.filter_eq_nil_iff.mpr fun a ha => by simpa using hgreater a ha
        have hhigh : (mid :: after).filter (fun a => decide (key pivot < key a)) = mid :: after :=
          List.filter_eq_self.mpr fun a ha => by simpa using hgreater a ha
        rw [if_pos (by simpa using hless), ih (fun a ha => hlt a (List.mem_append_left _ ha))
          (by omega) hbeforeSorted, List.filter_append, List.filter_append, hlow, hhigh]
        simp
      · -- everything up to the middle is not greater
        have hmidLe : key mid ≤ key pivot := not_lt.mp hless
        have hle : ∀ a ∈ before, key a ≤ key pivot := fun a ha =>
          (hcross a ha mid List.mem_cons_self).trans hmidLe
        have hlow : before.filter (fun a => decide (key a ≤ key pivot)) = before :=
          List.filter_eq_self.mpr fun a ha => by simpa using hle a ha
        have hhigh : before.filter (fun a => decide (key pivot < key a)) = [] :=
          List.filter_eq_nil_iff.mpr fun a ha => by simpa using hle a ha
        rw [if_neg (by simpa using hless), ih (fun a ha => hlt a (by simp [ha])) (by omega)
          hafterSorted, List.filter_append, List.filter_append, hlow, hhigh]
        simp [hmidLe, hless]

/-- The first run is sorted, and the elements of one key keep their order in it. -/
theorem firstRun_spec {xs : List α} (hlt : ∀ a ∈ xs, ∀ b ∈ xs, lt a b = decide (key a < key b)) :
    ((firstRun lt xs).1.Pairwise fun a b => key a ≤ key b) ∧
      ∀ k, ((firstRun lt xs).1 ++ (firstRun lt xs).2).filter (fun a => key a = k) =
        xs.filter fun a => key a = k := by
  match xs with
  | [] => exact ⟨List.Pairwise.nil, fun k => rfl⟩
  | [x] => exact ⟨List.pairwise_singleton _ _, fun k => rfl⟩
  | x :: y :: ys =>
    have hchain : ∀ (more : α → α → Bool) (R : κ → κ → Prop), more x y = true →
        (∀ a ∈ x :: y :: ys, ∀ b ∈ x :: y :: ys, more a b = true → R (key a) (key b)) →
        (x :: y :: (takeRun more y ys).1).IsChain fun a b => R (key a) (key b) := by
      intro more R hxy himp
      have hsub : ∀ a ∈ x :: y :: (takeRun more y ys).1, a ∈ x :: y :: ys := by
        intro a ha
        have happ := takeRun_append more y ys
        rw [← happ]
        simp only [List.mem_cons, List.mem_append] at ha ⊢
        tauto
      have hraw : (x :: y :: (takeRun more y ys).1).IsChain fun a b => more a b = true :=
        List.isChain_cons_cons.mpr ⟨hxy, takeRun_chain⟩
      exact hraw.imp_of_mem_imp fun a b ha hb hab => himp a (hsub a ha) b (hsub b hb) hab
    rw [firstRun]
    split
    · rename_i hyx
      -- a strictly descending run has one element of each key, so turning it round is no change
      have hdesc := hchain (fun a b => lt b a) (fun u v => v < u) hyx
        fun a ha b hb hab => by
          rw [hlt b hb a ha, decide_eq_true_eq] at hab
          exact hab
      have hpair : (x :: y :: (takeRun (fun a b => lt b a) y ys).1).Pairwise
          fun a b => key b < key a := by
        have : IsTrans α fun a b => key b < key a := ⟨fun a b c hab hbc => hbc.trans hab⟩
        exact List.isChain_iff_pairwise.mp hdesc
      refine ⟨List.pairwise_reverse.mpr (hpair.imp le_of_lt), fun k => ?_⟩
      set run := x :: y :: (takeRun (fun a b => lt b a) y ys).1 with hrun
      have hone : ∀ us : List α, us.Pairwise (fun a b => key b < key a) →
          (us.filter fun a => key a = k).reverse = us.filter fun a => key a = k := by
        intro us hus
        have hfil := hus.filter fun a => decide (key a = k)
        match hlist : us.filter fun a => decide (key a = k) with
        | [] => rfl
        | [a] => rfl
        | a :: b :: rest =>
          rw [hlist] at hfil
          have hab := (List.pairwise_cons.mp hfil).1 b List.mem_cons_self
          have hka : a ∈ us.filter fun a => decide (key a = k) := by rw [hlist]; simp
          have hkb : b ∈ us.filter fun a => decide (key a = k) := by rw [hlist]; simp
          simp only [List.mem_filter, decide_eq_true_eq] at hka hkb
          exact absurd hab (by rw [hka.2, hkb.2]; exact lt_irrefl k)
      rw [List.filter_append, List.filter_reverse, hone run hpair, ← List.filter_append, hrun]
      simp only [List.cons_append, takeRun_append]
    · rename_i hyx
      have hasc := hchain (fun a b => !lt b a) (fun u v => u ≤ v)
        (by simpa using hyx) fun a ha b hb hab => by
          simp only [Bool.not_eq_true', hlt b hb a ha, decide_eq_false_iff_not, not_lt] at hab
          exact hab
      have : IsTrans α fun a b => key a ≤ key b := ⟨fun a b c => le_trans⟩
      refine ⟨List.isChain_iff_pairwise.mp hasc, fun k => ?_⟩
      simp only [List.cons_append, takeRun_append]

/-- Cut in two at a key, a list keeps the order of the elements of each key. -/
theorem filter_key_cut (xs : List α) (cut k : κ) :
    (xs.filter fun a => key a ≤ cut).filter (fun a => key a = k) ++
      (xs.filter fun a => cut < key a).filter (fun a => key a = k) =
        xs.filter fun a => key a = k := by
  rw [List.filter_filter, List.filter_filter]
  by_cases hk : k ≤ cut
  · have hlow : xs.filter (fun a => decide (key a = k) && decide (key a ≤ cut)) =
        xs.filter fun a => key a = k := by
      refine List.filter_congr fun a _ => ?_
      by_cases ha : key a = k <;> simp [ha, hk]
    have hhigh : xs.filter (fun a => decide (key a = k) && decide (cut < key a)) = [] := by
      refine List.filter_eq_nil_iff.mpr fun a _ => ?_
      by_cases ha : key a = k <;> simp [ha, hk]
    rw [hlow, hhigh, List.append_nil]
  · have hlow : xs.filter (fun a => decide (key a = k) && decide (key a ≤ cut)) = [] := by
      refine List.filter_eq_nil_iff.mpr fun a _ => ?_
      by_cases ha : key a = k <;> simp [ha, hk]
    have hhigh : xs.filter (fun a => decide (key a = k) && decide (cut < key a)) =
        xs.filter fun a => key a = k := by
      refine List.filter_congr fun a _ => ?_
      by_cases ha : key a = k <;> simp [ha, not_le.mp hk]
    rw [hlow, hhigh, List.nil_append]

/-- An insertion keeps a list sorted, and puts the pivot behind the elements of its key. -/
theorem insertPivot_spec {pivot : α} {xs : List α}
    (hlt : ∀ a ∈ xs, lt pivot a = decide (key pivot < key a))
    (hxs : xs.Pairwise fun a b => key a ≤ key b) :
    ((insertPivot lt pivot xs.length xs).Pairwise fun a b => key a ≤ key b) ∧
      ∀ k, (insertPivot lt pivot xs.length xs).filter (fun a => key a = k) =
        (xs ++ [pivot]).filter fun a => key a = k := by
  rw [insertPivot_eq hlt (le_refl _) hxs]
  constructor
  · refine List.pairwise_append.mpr ⟨hxs.filter _, List.pairwise_cons.mpr
      ⟨fun b hb => ?_, hxs.filter _⟩, fun a ha b hb => ?_⟩
    · exact (of_decide_eq_true (List.mem_filter.mp hb).2).le
    · have hax : key a ≤ key pivot := of_decide_eq_true (List.mem_filter.mp ha).2
      rcases List.mem_cons.mp hb with rfl | hb
      · exact hax
      · exact hax.trans (of_decide_eq_true (List.mem_filter.mp hb).2).le
  · intro k
    rw [List.filter_append, List.filter_append, ← filter_key_cut xs (key pivot) k,
      List.filter_cons]
    by_cases hk : key pivot = k
    · -- no element of the pivot's key stands behind it
      have hhigh : (xs.filter fun a => decide (key pivot < key a)).filter
          (fun a => decide (key a = k)) = [] := by
        rw [List.filter_filter]
        refine List.filter_eq_nil_iff.mpr fun a _ => ?_
        by_cases ha : key a = k <;> simp [ha, hk]
      rw [hhigh]
      simp [hk]
    · simp [hk]

/-- **Where `<` orders the elements by a key, the outcome is the stable sort by that key.**

Both lists are sorted, and both keep the elements of each key in the order they came, which leaves no
choice.  The second half is why the pivot has to go behind its equals, and why only a strictly
descending run may be turned round. -/
theorem listSort_eq {xs : List α} (hlt : ∀ a ∈ xs, ∀ b ∈ xs, lt a b = decide (key a < key b)) :
    listSort lt xs = xs.insertionSort fun a b => key a ≤ key b := by
  have htotal : Std.Total fun a b : α => key a ≤ key b := ⟨fun a b => le_total _ _⟩
  have htrans : IsTrans α fun a b => key a ≤ key b := ⟨fun a b c => le_trans⟩
  have hfold : ∀ (rest sorted : List α), (∀ a ∈ sorted ++ rest, a ∈ xs) →
      (sorted.Pairwise fun a b => key a ≤ key b) →
      ((rest.foldl (fun sorted x => insertPivot lt x sorted.length sorted) sorted).Pairwise
          fun a b => key a ≤ key b) ∧
        ∀ k, (rest.foldl (fun sorted x => insertPivot lt x sorted.length sorted) sorted).filter
          (fun a => key a = k) = (sorted ++ rest).filter fun a => key a = k := by
    intro rest
    induction rest with
    | nil => exact fun sorted _ hsorted => ⟨hsorted, fun k => by simp⟩
    | cons x rest ih =>
      intro sorted hmem hsorted
      have hx : x ∈ xs := hmem x (by simp)
      have hperm : (insertPivot lt x sorted.length sorted).Perm (x :: sorted) :=
        insertPivot_perm x sorted.length sorted
      obtain ⟨hins, hinsFilter⟩ := @insertPivot_spec _ lt _ _ key x sorted
        (fun a ha => hlt x hx a (hmem a (by simp [ha]))) hsorted
      obtain ⟨hout, hfilter⟩ := ih (insertPivot lt x sorted.length sorted) (by
        intro a ha
        refine hmem a ?_
        rcases List.mem_append.mp ha with ha | ha
        · rcases List.mem_cons.mp (hperm.mem_iff.mp ha) with rfl | ha <;> simp [*]
        · simp [ha]) hins
      refine ⟨hout, fun k => (hfilter k).trans ?_⟩
      rw [List.filter_append, hinsFilter k, ← List.filter_append, List.append_assoc]
      rfl
  obtain ⟨hrun, hrunFilter⟩ := firstRun_spec hlt
  obtain ⟨hsorted, hfilter⟩ := hfold (firstRun lt xs).2 (firstRun lt xs).1
    (fun a ha => (firstRun_perm xs).mem_iff.mp ha) hrun
  refine eq_of_filter_key_eq hsorted (List.pairwise_insertionSort _ xs) fun k => ?_
  rw [listSort, hfilter k, hrunFilter k, filter_insertionSort]

/-- With `reverse=True` the list is turned round before and after, which keeps the order of equal
elements. -/
theorem reverse_listSort_reverse {xs : List α}
    (hlt : ∀ a ∈ xs, ∀ b ∈ xs, lt a b = decide (key a < key b)) :
    (listSort lt xs.reverse).reverse = xs.insertionSort fun a b => key b ≤ key a := by
  have htotal : Std.Total fun a b : α => key a ≤ key b := ⟨fun a b => le_total _ _⟩
  have htrans : IsTrans α fun a b => key a ≤ key b := ⟨fun a b c => le_trans⟩
  have htotal' : Std.Total fun a b : α => key b ≤ key a := ⟨fun a b => le_total _ _⟩
  have htrans' : IsTrans α fun a b => key b ≤ key a := ⟨fun a b c hab hbc => hbc.trans hab⟩
  rw [listSort_eq fun a ha b hb => hlt a (List.mem_reverse.mp ha) b (List.mem_reverse.mp hb)]
  refine @eq_of_filter_key_eq _ _ _ (fun a => OrderDual.toDual (key a)) _ _
    (List.pairwise_reverse.mpr (List.pairwise_insertionSort _ _))
    (List.pairwise_insertionSort (fun a b => key b ≤ key a) xs) fun k => ?_
  have hdual := @filter_insertionSort _ _ _ (fun a => OrderDual.toDual (key a)) xs k
  have hkeep := @filter_insertionSort _ _ _ key xs.reverse (OrderDual.ofDual k)
  rw [List.filter_reverse]
  calc
    (((xs.reverse.insertionSort fun a b => key a ≤ key b).filter
        fun a => OrderDual.toDual (key a) = k)).reverse
      = (xs.reverse.filter fun a => key a = OrderDual.ofDual k).reverse := congrArg _ hkeep
    _ = xs.filter fun a => OrderDual.toDual (key a) = k := by
      rw [List.filter_reverse, List.reverse_reverse]
      rfl
    _ = _ := hdual.symm

end Ordered

/-! ## 4. Elements that are in order with nothing

`odd` is the property of being in order with nothing, as a `nan` is: no comparison with such an
element is true.  The other elements may be compared in any way. -/

section Unordered

variable {odd : α → Prop}

/-- An insertion leaves the front as odd as it was. -/
theorem insertPivot_front {pivot front : α} {fuel : ℕ} {xs : List α}
    (hodd : ∀ a b, lt a b = true → ¬odd a ∧ ¬odd b) (hhead : xs.head? = some front)
    (hfuel : xs.length ≤ fuel) :
    ∃ front', (insertPivot lt pivot fuel xs).head? = some front' ∧ (odd front' ↔ odd front) := by
  induction fuel generalizing xs with
  | zero =>
    obtain rfl : xs = [] := List.length_eq_zero_iff.mp (by omega)
    simp at hhead
  | succ fuel ih =>
    have hsplit := List.take_append_drop (xs.length / 2) xs
    have hpos : 0 < xs.length := List.length_pos_iff.mpr fun h => by simp [h] at hhead
    rw [insertPivot]
    split
    · rename_i hnil
      have := List.drop_eq_nil_iff.mp hnil
      omega
    · rename_i mid after hdrop
      rw [hdrop] at hsplit
      cases hbefore : xs.take (xs.length / 2) with
      | nil =>
        -- the middle is the front, and the pivot gets before it only if both are in order
        rw [hbefore, List.nil_append] at hsplit
        rw [← hsplit] at hhead
        obtain rfl : mid = front := by simpa using hhead
        split
        · rename_i hless
          obtain ⟨hpivot, hmid⟩ := hodd _ _ hless
          have hone : (insertPivot lt pivot fuel []).head? = some pivot := by
            cases fuel <;> simp [insertPivot]
          exact ⟨pivot, by rw [List.head?_append, hone]; rfl, by simp [hpivot, hmid]⟩
        · exact ⟨mid, rfl, Iff.rfl⟩
      | cons b before =>
        rw [hbefore] at hsplit
        rw [← hsplit] at hhead
        obtain rfl : b = front := by simpa using hhead
        split
        · obtain ⟨front', hfront, hiff⟩ := ih (show (b :: before).head? = some b from rfl) (by
            rw [← hbefore, List.length_take]
            omega)
          exact ⟨front', by rw [List.head?_append, hfront]; rfl, hiff⟩
        · exact ⟨b, rfl, Iff.rfl⟩

/-- **An element that is in order with nothing is in front of the sorted list exactly if one was in
front of the list.**

A descending run has no such element, and an insertion never compares the pivot with anything that it
could pass and that could not be passed by the front. -/
theorem head_listSort_iff {xs : List α} (hodd : ∀ a b, lt a b = true → ¬odd a ∧ ¬odd b) :
    (∃ a ∈ (listSort lt xs).head?, odd a) ↔ ∃ a ∈ xs.head?, odd a := by
  have hfold : ∀ (rest sorted : List α) (front : α), sorted.head? = some front →
      ∃ front', (rest.foldl (fun sorted x => insertPivot lt x sorted.length sorted) sorted).head? =
        some front' ∧ (odd front' ↔ odd front) := by
    intro rest
    induction rest with
    | nil => exact fun sorted front h => ⟨front, h, Iff.rfl⟩
    | cons x rest ih =>
      intro sorted front h
      obtain ⟨front', h', hiff⟩ := @insertPivot_front _ lt odd x front sorted.length sorted
        hodd h (le_refl _)
      obtain ⟨front'', h'', hiff'⟩ := ih _ _ h'
      exact ⟨front'', h'', hiff'.trans hiff⟩
  cases hxs : xs.head? with
  | none =>
    obtain rfl := List.head?_eq_none_iff.mp hxs
    simp [listSort, firstRun]
  | some a =>
    obtain ⟨b, hb, hba⟩ : ∃ b, (firstRun lt xs).1.head? = some b ∧ (odd b ↔ odd a) := by
      match xs with
      | [] => simp at hxs
      | [x] => exact ⟨a, hxs, Iff.rfl⟩
      | x :: y :: ys =>
        obtain rfl : x = a := by simpa using hxs
        rw [firstRun]
        split
        · rename_i hyx
          -- all of the run takes part in a comparison that holds
          have hrun : ∀ e ∈ y :: (takeRun (fun a b => lt b a) y ys).1, ¬odd e := by
            have hchain : (x :: y :: (takeRun (fun a b => lt b a) y ys).1).IsChain
                fun a b => lt b a = true := List.isChain_cons_cons.mpr ⟨hyx, takeRun_chain⟩
            intro e he
            obtain ⟨i, hi, rfl⟩ := List.getElem_of_mem he
            exact (hodd _ _ (List.isChain_iff_getElem.mp hchain i (by simpa using hi))).1
          rw [List.head?_reverse]
          obtain ⟨e, he⟩ : ∃ e, (x :: y :: (takeRun (fun a b => lt b a) y ys).1).getLast? = some e :=
            ⟨_, List.getLast?_eq_some_getLast (List.cons_ne_nil _ _)⟩
          refine ⟨e, he, ?_⟩
          have hmem : e ∈ y :: (takeRun (fun a b => lt b a) y ys).1 := by
            rw [List.getLast?_cons_cons] at he
            exact List.mem_of_getLast? he
          simp [hrun e hmem, (hodd _ _ hyx).2]
        · exact ⟨x, rfl, Iff.rfl⟩
    obtain ⟨c, hc, hcb⟩ := hfold (firstRun lt xs).2 _ b hb
    have hsorted : (listSort lt xs).head? = some c := hc
    simp [hsorted, hcb.trans hba]

end Unordered

end ListSort

end Py
