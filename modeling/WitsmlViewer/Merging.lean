/-
# Batching, merging and deduping (`merge_blocks`, `dedupe_boundary`)

Rows come in pages.  The client merges the pages of a fetch before the scheduler dedupes them; the
tests dedupe each page and merge afterwards.  `merge_laws` says that neither this order nor the way
rows were cut into pages makes a difference: a merge keeps the last row of each index, in ascending
order (`LastWins.Merges`), and a dedupe looks at a row's index only.

The indices are of one kind: numbers, texts, or instants that are all naive or all aware.  None of
them is `nan`, which is not comparable with itself.  The cursor may be anything.

The laws are between results that may be errors.  A cursor that cannot be compared with an index
makes `dedupe_boundary` raise, and it then raises on either side of each equation; so they are
stated for the functions as they are and not for the case that all goes well.

A block without a mnemonic header may stand among the others.  The client makes such a block from
an empty page, and a merge takes its header from the first block that has one, which is why the
header has a lemma of its own in each part.
-/
import WitsmlViewer.Py.Timestamp
import WitsmlViewer.Polling
import WitsmlViewer.Lib.LastWins

namespace WitsmlViewer

open Py LastWins

/-! ## 1. Comparable values

Python compares values of one kind and raises otherwise.  On comparable values that are no `nan`
the comparison is that of a linear order; `place` says which, and what is proved about sorting is
proved there. -/

namespace Value

/-- Where a value stands among those of its kind. -/
def place : Value → ℤ ⊕ₗ Str ⊕ₗ ℤ
  | num x => toLex (.inl x.rank)
  | text w => toLex (.inr (toLex (.inl w)))
  | dt t => toLex (.inr (toLex (.inr t.micros)))

variable {a b c : Value}

theorem lt?_eq_place (h : a.comparable b = true) (ha : a ≠ num .nan) (hb : b ≠ num .nan) :
    a.lt? b = .ok (decide (a.place < b.place)) := by
  cases a <;> cases b <;> simp [comparable] at h
  · rename_i x y
    have hx : (x != .nan) = true := bne_iff_ne.mpr fun heq => ha (congrArg num heq)
    have hy : (y != .nan) = true := bne_iff_ne.mpr fun heq => hb (congrArg num heq)
    simp [lt?, place, Float64.lt, hx, hy]
  · simp [lt?, place]
  · simp [lt?, place, h]

theorem place_inj (h : a.comparable b = true) (ha : a ≠ num .nan) (hb : b ≠ num .nan)
    (heq : a.place = b.place) : a = b := by
  cases a <;> cases b <;> simp [comparable] at h
  · rename_i x y
    have hrank : x.rank = y.rank := by simpa [place] using heq
    rw [Float64.rank_injOn (fun hn => ha (congrArg num hn)) (fun hn => hb (congrArg num hn)) hrank]
  · simpa [place] using heq
  · rename_i s t
    have hmicros : s.micros = t.micros := by simpa [place] using heq
    rw [Datetime.ext_micros hmicros h]

/-- `a < b`, without an error. -/
def Below (a b : Value) : Prop := a.lt? b = .ok true

/-- Of two values at most one is below the other. -/
theorem Below.asymm (h : a.Below b) : ¬b.Below a := by
  intro h'
  cases a <;> cases b <;> simp [Below, lt?, Float64.lt] at h h'
  · exact lt_asymm h.2 h'.2
  · exact lt_asymm h h'
  · split at h
    · rename_i haware
      rw [if_pos haware.symm] at h'
      simp only [Except.ok.injEq, decide_eq_true_eq] at h h'
      exact lt_asymm h h'
    · cases h

end Value

/-! ## 2. A merge

What `merge_blocks` does to rows is said by `LastWins.Merges`, a property of lists that names
nothing of this program.  Its uniqueness is what the laws rest on: two lists that both keep the
last row of each index in ascending order are one list. -/

/-- Rows whose indices can be sorted: any two are comparable, and none is `nan`. -/
def Mutual (rows : List Row) : Prop :=
  ∀ i ∈ rows.filterMap Row.index, ∀ j ∈ rows.filterMap Row.index,
    i.comparable j = true ∧ i ≠ .num .nan

instance (rows : List Row) : Decidable (Mutual rows) :=
  inferInstanceAs (Decidable (∀ i ∈ rows.filterMap Row.index, ∀ j ∈ rows.filterMap Row.index, _))

theorem Mutual.pair {rows : List Row} (h : Mutual rows) {r r' : Row} (hr : r ∈ rows)
    (hr' : r' ∈ rows) {i j : Value} (hi : r.index = some i) (hj : r'.index = some j) :
    i.comparable j = true ∧ i ≠ .num .nan :=
  h i (List.mem_filterMap.mpr ⟨r, hr, hi⟩) j (List.mem_filterMap.mpr ⟨r', hr', hj⟩)

theorem Mutual.subset {rows rows' : List Row} (h : Mutual rows) (hsub : rows' ⊆ rows) :
    Mutual rows' := by
  have hindex : rows'.filterMap Row.index ⊆ rows.filterMap Row.index := fun i hi => by
    obtain ⟨r, hr, hri⟩ := List.mem_filterMap.mp hi
    exact List.mem_filterMap.mpr ⟨r, hsub hr, hri⟩
  exact fun i hi j hj => h i (hindex hi) j (hindex hj)

/-- Blocks with one mnemonic header, which an empty block may lack, and comparable indices. -/
structure Mergeable (blocks : List LogDataBlock) : Prop where
  header : ∃ mnemonics, ∀ b ∈ blocks, b.mnemonics = [] ∨ b.mnemonics = mnemonics
  indices : Mutual (blocks.flatMap LogDataBlock.rows)

/-- What `by_index` holds: the last row of each index.  A later row of an index takes the earlier
one's place in the dictionary; the place is the earlier one's, the row is not. -/
theorem indexRows_entries {rows : List Row}
    (h : ∀ r ∈ rows, ∀ i, r.index = some i → i ≠ .num .nan) :
    Dict.Distinct (indexRows [] rows) ∧
      ∀ i r, (i, r) ∈ indexRows [] rows ↔ lastOf Row.index rows i = some r := by
  induction rows using List.reverseRecOn with
  | nil => exact ⟨Dict.distinct_nil, fun i r => by simp [indexRows, lastOf, under]⟩
  | append_singleton rows r ih =>
    obtain ⟨hdist, hmem⟩ := ih fun r' hr' => h r' (List.mem_append_left _ hr')
    cases hr : r.index with
    | none =>
      have hstep : indexRows [] (rows ++ [r]) = indexRows [] rows := by
        rw [indexRows, List.foldl_append, List.foldl_cons, List.foldl_nil, hr]
        rfl
      refine ⟨hstep ▸ hdist, fun i r' => ?_⟩
      have hnone : lastOf Row.index [r] i = none := by simp [lastOf, under, hr]
      rw [hstep, lastOf_append, hnone, Option.none_or]
      exact hmem i r'
    | some j =>
      have hstep : indexRows [] (rows ++ [r]) = (indexRows [] rows).set j r := by
        rw [indexRows, List.foldl_append, List.foldl_cons, List.foldl_nil, hr]
        rfl
      have hj : j ≠ .num .nan := h r (by simp) j hr
      refine ⟨hstep ▸ Dict.distinct_set hdist, fun i r' => ?_⟩
      rw [hstep, lastOf_append]
      by_cases hij : i = j
      · subst hij
        have hlast : lastOf Row.index [r] i = some r := by simp [lastOf, under, hr]
        rw [hlast, Option.some_or, Option.some.injEq]
        constructor
        · intro he
          rcases Dict.mem_of_mem_set Value.eq_of_beq hdist he with heq | ⟨-, hne⟩
          · exact (Prod.mk.inj heq).2.symm
          · rw [Value.beq_self hj] at hne
            cases hne
        · rintro rfl
          exact Dict.mem_set_self Value.eq_of_beq i r _
      · have hji : ¬j = i := fun heq => hij heq.symm
        have hnone : lastOf Row.index [r] i = none := by simp [lastOf, under, hr, hji]
        rw [hnone, Option.none_or, ← hmem i r']
        constructor
        · intro he
          rcases Dict.mem_of_mem_set Value.eq_of_beq hdist he with heq | ⟨he, -⟩
          · exact absurd (Prod.mk.inj heq).1 hij
          · exact he
        · intro he
          refine Dict.mem_set_of_ne he ?_
          rw [Bool.eq_false_iff]
          exact fun hbeq => hij (Value.eq_of_beq _ _ hbeq)

/-- **Comparable entries are sorted**, strictly if they are distinct. -/
theorem sortedEntries_ascending {α : Type} {d : Dict Value α} (hdist : Dict.Distinct d)
    (hd : ∀ e ∈ d, ∀ e' ∈ d, e.1.comparable e'.1 = true ∧ e.1 ≠ .num .nan) :
    ∃ ordered, sortedEntries false d = .ok ordered ∧ ordered.Perm d ∧
      ordered.Pairwise fun a b => a.1.Below b.1 := by
  have hcomp : d.Pairwise fun a b => a.1.comparable b.1 := by
    rw [List.pairwise_iff_forall_sublist]
    intro a b hab
    exact (hd a (hab.subset (by simp)) b (hab.subset (by simp))).1
  have hsort : sortedEntries false d =
      .ok (d.insertionSort fun a b => a.1.place ≤ b.1.place) := by
    rw [sortedEntries, if_pos hcomp]
    refine congrArg Except.ok (listSort_eq fun a ha b hb => ?_)
    obtain ⟨hab, hnan⟩ := hd a ha b hb
    rw [Value.before, Value.lt?_eq_place hab hnan (hd b hb b hb).2]
  set ordered := d.insertionSort fun a b => a.1.place ≤ b.1.place with hordered
  have hperm : ordered.Perm d := List.perm_insertionSort _ d
  have hsorted : ordered.Pairwise fun a b => a.1.place ≤ b.1.place := by
    have htot : Std.Total fun a b : Value × α => a.1.place ≤ b.1.place :=
      ⟨fun a b => le_total _ _⟩
    have htrans : IsTrans (Value × α) fun a b => a.1.place ≤ b.1.place :=
      ⟨fun a b c => le_trans⟩
    exact List.pairwise_insertionSort _ _
  have hdistinct : ordered.Pairwise fun a b => a.1 ≠ b.1 := by
    refine (hperm.symm.pairwise_iff (fun hab => hab.symm)).mp ?_
    refine hdist.imp_of_mem fun {a b} ha hb hab heq => ?_
    rw [heq, Value.beq_self (hd b hb b hb).2] at hab
    cases hab
  refine ⟨ordered, hsort, hperm, (hsorted.and hdistinct).imp_of_mem fun {a b} ha hb hab => ?_⟩
  have ha := hperm.mem_iff.mp ha
  have hb := hperm.mem_iff.mp hb
  obtain ⟨hcomp, hnan⟩ := hd a ha b hb
  have hnan' := (hd b hb b hb).2
  rw [Value.Below, Value.lt?_eq_place hcomp hnan hnan', Except.ok.injEq, decide_eq_true_eq]
  exact lt_of_le_of_ne hab.1 fun heq => hab.2 (Value.place_inj hcomp hnan hnan' heq)

/-- The block that gives the header. -/
def headBlock (first : LogDataBlock) (rest : List LogDataBlock) : LogDataBlock :=
  ((first :: rest).find? fun b => b.mnemonics ≠ []).getD first

/-- **A merge succeeds**, and its rows are the last ones of each index, ascending. -/
theorem mergeBlocks_merges {first : LogDataBlock} {rest : List LogDataBlock}
    (h : Mergeable (first :: rest)) :
    ∃ rows, mergeBlocks (first :: rest) = .ok { headBlock first rest with rows := rows } ∧
      Merges Row.index Value.Below ((first :: rest).flatMap LogDataBlock.rows) rows := by
  obtain ⟨⟨mnemonics, hheader⟩, hmutual⟩ := h
  have hagree : ¬((first :: rest).any fun b => b.mnemonics ≠ [] ∧
      b.mnemonics ≠ (headBlock first rest).mnemonics) = true := by
    simp only [List.any_eq_true, decide_eq_true_eq, not_exists, not_and, not_not]
    intro b hb hne
    have hmnem : ∀ b ∈ first :: rest, b.mnemonics ≠ [] → b.mnemonics = mnemonics := fun b hb hne =>
      (hheader b hb).resolve_left hne
    rw [headBlock]
    cases hfind : (first :: rest).find? fun b => b.mnemonics ≠ [] with
    | none => exact absurd (List.find?_eq_none.mp hfind b hb) (by simpa using hne)
    | some b' =>
      have hne' : b'.mnemonics ≠ [] := by simpa using List.find?_some hfind
      rw [Option.getD_some, hmnem b hb hne, hmnem b' (List.mem_of_find?_eq_some hfind) hne']
  have hne_nan : ∀ r ∈ (first :: rest).flatMap LogDataBlock.rows, ∀ i, r.index = some i →
      i ≠ .num .nan := fun r hr i hi => (hmutual.pair hr hr hi hi).2
  obtain ⟨hdist, hmem⟩ := indexRows_entries hne_nan
  set d := indexRows [] ((first :: rest).flatMap LogDataBlock.rows) with hd
  have hentry : ∀ e ∈ d, e.2 ∈ (first :: rest).flatMap LogDataBlock.rows ∧ e.2.index = some e.1 :=
    fun e he => key_of_lastOf ((hmem e.1 e.2).mp he)
  have hpair : ∀ e ∈ d, ∀ e' ∈ d, e.1.comparable e'.1 = true ∧ e.1 ≠ .num .nan := by
    intro e he e' he'
    obtain ⟨hrow, hindex⟩ := hentry e he
    obtain ⟨hrow', hindex'⟩ := hentry e' he'
    exact hmutual.pair hrow hrow' hindex hindex'
  obtain ⟨ordered, hsort, hperm, hbelow⟩ := sortedEntries_ascending hdist hpair
  have hascending : (ordered.map Prod.snd).Pairwise fun a b =>
      ∃ i j, a.index = some i ∧ b.index = some j ∧ i.Below j := by
    rw [List.pairwise_map]
    refine hbelow.imp_of_mem fun {a b} ha hb hab => ?_
    exact ⟨a.1, b.1, (hentry a (hperm.mem_iff.mp ha)).2, (hentry b (hperm.mem_iff.mp hb)).2, hab⟩
  refine ⟨ordered.map Prod.snd, ?_, hascending, ?_, ?_⟩
  · simp only [mergeBlocks]
    rw [← headBlock, if_neg hagree, foldl_indexRows, ← hd, hsort]
    rfl
  · intro r hr
    obtain ⟨e, he, rfl⟩ := List.mem_map.mp hr
    rw [(hentry e (hperm.mem_iff.mp he)).2]
    exact Option.some_ne_none _
  · intro k
    have hnodup : (ordered.map Prod.snd).Nodup := by
      refine hascending.imp fun {a b} => ?_
      rintro ⟨i, j, hi, hj, hbelow⟩ rfl
      obtain rfl := Option.some.inj (hi.symm.trans hj)
      exact hbelow.asymm hbelow
    have hunder : ∀ r, r ∈ under Row.index (ordered.map Prod.snd) k ↔
        lastOf Row.index ((first :: rest).flatMap LogDataBlock.rows) k = some r := by
      intro r
      rw [mem_under, ← hmem k r, List.mem_map]
      constructor
      · rintro ⟨⟨e, he, rfl⟩, hk⟩
        have he := hperm.mem_iff.mp he
        obtain rfl := Option.some.inj ((hentry e he).2.symm.trans hk)
        exact he
      · intro he
        exact ⟨⟨(k, r), hperm.mem_iff.mpr he, rfl⟩, (hentry _ he).2⟩
    cases hlast : lastOf Row.index ((first :: rest).flatMap LogDataBlock.rows) k with
    | none =>
      refine List.eq_nil_iff_forall_not_mem.mpr fun r hr => ?_
      have hsome := (hunder r).mp hr
      rw [hlast] at hsome
      cases hsome
    | some r =>
      refine List.perm_singleton.mp ((List.perm_ext_iff_of_nodup (hnodup.filter _)
        (List.nodup_singleton r)).mpr fun r' => ?_)
      rw [List.mem_singleton]
      refine (hunder r').trans ?_
      rw [hlast, Option.some.injEq]
      exact eq_comm

/-! ## 3. Merging in groups

To merge in groups is to merge the last rows of each group.  The last row of an index among all
rows is the last among the last rows of the groups, if the groups come in order; the general
statement is in `LastWins`, and `StandsFor` adds the header to it. -/

/-- A block without its rows. -/
def LogDataBlock.strip (b : LogDataBlock) : LogDataBlock := { b with rows := [] }

/-- The block has a mnemonic header. -/
def LogDataBlock.hasHeader (b : LogDataBlock) : Bool := decide (b.mnemonics ≠ [])

/-- Blocks that differ in rows only are one block with the same rows. -/
theorem withRows_congr {b b' : LogDataBlock} (h : b.strip = b'.strip) (rows : List Row) :
    { b with rows := rows } = { b' with rows := rows } := by
  simp only [LogDataBlock.strip, LogDataBlock.mk.injEq, and_true] at h ⊢
  exact h

/-- Whether a block has a header does not depend on its rows. -/
theorem hasHeader_congr {b b' : LogDataBlock} (h : b.strip = b'.strip) :
    b.hasHeader = b'.hasHeader := by
  rw [LogDataBlock.hasHeader, LogDataBlock.hasHeader, (LogDataBlock.mk.inj h).1]

/-- What a merged block keeps of the blocks that it was merged from. -/
structure StandsFor (blocks : List LogDataBlock) (merged : LogDataBlock) : Prop where
  last : lastOf Row.index merged.rows = lastOf Row.index (blocks.flatMap LogDataBlock.rows)
  rows : merged.rows ⊆ blocks.flatMap LogDataBlock.rows
  mnemonics : ∃ b ∈ blocks, merged.mnemonics = b.mnemonics
  header : (blocks.find? LogDataBlock.hasHeader).map LogDataBlock.strip =
    if merged.hasHeader then some merged.strip else none
  first : merged.hasHeader = false → blocks.head?.map LogDataBlock.strip = some merged.strip

/-- A merged block stands for the blocks that it was merged from. -/
theorem standsFor_of_merges {first : LogDataBlock} {rest : List LogDataBlock} {rows : List Row}
    (h : Merges Row.index Value.Below ((first :: rest).flatMap LogDataBlock.rows) rows) :
    StandsFor (first :: rest) { headBlock first rest with rows := rows } := by
  have hstrip : ({ headBlock first rest with rows := rows } : LogDataBlock).strip =
      (headBlock first rest).strip := rfl
  have hhead : headBlock first rest =
      ((first :: rest).find? LogDataBlock.hasHeader).getD first := rfl
  refine ⟨h.lastOf_eq, fun r hr => ?_, ?_, ?_, fun hno => ?_⟩
  · obtain ⟨k, hk⟩ := h.mem_iff.mp hr
    exact (key_of_lastOf hk).1
  · refine ⟨headBlock first rest, ?_, rfl⟩
    rw [hhead]
    cases hfind : (first :: rest).find? LogDataBlock.hasHeader with
    | none => exact List.mem_cons_self
    | some b => exact List.mem_of_find?_eq_some hfind
  · rw [hasHeader_congr hstrip, hstrip, hhead]
    cases hfind : (first :: rest).find? LogDataBlock.hasHeader with
    | none =>
      have hnone := List.find?_eq_none.mp hfind first List.mem_cons_self
      rw [Option.getD_none, if_neg hnone]
      rfl
    | some b =>
      rw [Option.getD_some, if_pos (List.find?_some hfind)]
      rfl
  · rw [hasHeader_congr hstrip, hhead] at hno
    rw [hstrip, hhead]
    cases hfind : (first :: rest).find? LogDataBlock.hasHeader with
    | none => rfl
    | some b =>
      rw [hfind, Option.getD_some, List.find?_some hfind] at hno
      cases hno

/-- **Groups and their merged blocks** agree on the last rows and on the header. -/
theorem standsFor_flatten {groups : List (List LogDataBlock)} {merged : List LogDataBlock}
    (h : List.Forall₂ StandsFor groups merged) :
    lastOf Row.index (merged.flatMap LogDataBlock.rows) =
        lastOf Row.index (groups.flatten.flatMap LogDataBlock.rows) ∧
      (merged.find? LogDataBlock.hasHeader).map LogDataBlock.strip =
        (groups.flatten.find? LogDataBlock.hasHeader).map LogDataBlock.strip ∧
      (merged.find? LogDataBlock.hasHeader = none →
        merged.head?.map LogDataBlock.strip = groups.flatten.head?.map LogDataBlock.strip) := by
  induction h with
  | nil => exact ⟨rfl, rfl, fun _ => rfl⟩
  | @cons g m groups merged hg _ ih =>
    obtain ⟨hlast, hfind, -⟩ := ih
    refine ⟨?_, ?_, fun hnone => ?_⟩
    · funext k
      rw [List.flatMap_cons, List.flatten_cons, List.flatMap_append, lastOf_append, lastOf_append,
        hlast, hg.last]
    · rw [List.flatten_cons, List.find?_append, List.find?_cons]
      have hheader := hg.header
      cases hm : m.hasHeader with
      | true =>
        rw [hm, if_pos rfl] at hheader
        obtain ⟨b, hb, hstrip⟩ := Option.map_eq_some_iff.mp hheader
        simp [hb, hstrip]
      | false =>
        rw [hm, if_neg (by simp)] at hheader
        rw [Option.map_eq_none_iff.mp hheader, Option.none_or]
        exact hfind
    · have hm : m.hasHeader = false := by
        have hno := List.find?_eq_none.mp hnone m List.mem_cons_self
        simpa using hno
      have hfirst := hg.first hm
      rw [List.flatten_cons]
      cases g with
      | nil => cases hfirst
      | cons b g => exact hfirst.symm

theorem Mergeable.of_mem {groups : List (List LogDataBlock)} (h : Mergeable groups.flatten)
    {g : List LogDataBlock} (hg : g ∈ groups) : Mergeable g := by
  have hsub : g ⊆ groups.flatten := fun b hb => List.mem_flatten.mpr ⟨g, hg, hb⟩
  obtain ⟨⟨mnemonics, hheader⟩, hindices⟩ := h
  refine ⟨⟨mnemonics, fun b hb => hheader b (hsub hb)⟩, hindices.subset fun r hr => ?_⟩
  obtain ⟨b, hb, hr⟩ := List.mem_flatMap.mp hr
  exact List.mem_flatMap.mpr ⟨b, hsub hb, hr⟩

/-- If every call succeeds, so does the list of them. -/
theorem exists_mapM_forall₂ {ε α β : Type} {f : α → Except ε β} {R : α → β → Prop} :
    ∀ {l : List α}, (∀ a ∈ l, ∃ b, f a = .ok b ∧ R a b) →
      ∃ m, l.mapM f = .ok m ∧ List.Forall₂ R l m
  | [], _ => ⟨[], rfl, .nil⟩
  | a :: l, h => by
    obtain ⟨b, hb, hR⟩ := h a List.mem_cons_self
    obtain ⟨m, hm, hRm⟩ := exists_mapM_forall₂ fun a' ha' => h a' (List.mem_cons_of_mem _ ha')
    refine ⟨b :: m, ?_, .cons hR hRm⟩
    rw [List.mapM_cons, hb, hm]
    rfl

/-- The merged blocks of groups can be merged in turn. -/
theorem Mergeable.of_standsFor {groups : List (List LogDataBlock)} {merged : List LogDataBlock}
    (h : Mergeable groups.flatten) (hstands : List.Forall₂ StandsFor groups merged) :
    Mergeable merged := by
  obtain ⟨⟨mnemonics, hheader⟩, hindices⟩ := h
  refine ⟨⟨mnemonics, fun m hm => ?_⟩, hindices.subset fun r hr => ?_⟩
  · obtain ⟨g, hg, hstand⟩ := exists_of_forall₂ hstands hm
    obtain ⟨b, hb, heq⟩ := hstand.mnemonics
    rw [heq]
    exact hheader b (List.mem_flatten.mpr ⟨g, hg, hb⟩)
  · obtain ⟨m, hm, hr⟩ := List.mem_flatMap.mp hr
    obtain ⟨g, hg, hstand⟩ := exists_of_forall₂ hstands hm
    obtain ⟨b, hb, hr⟩ := List.mem_flatMap.mp (hstand.rows hr)
    exact List.mem_flatMap.mpr ⟨b, List.mem_flatten.mpr ⟨g, hg, hb⟩, hr⟩

/-- Two merges agree if the last rows and the headers do. -/
theorem mergeBlocks_congr {first first' : LogDataBlock} {rest rest' : List LogDataBlock}
    (h : Mergeable (first :: rest)) (h' : Mergeable (first' :: rest'))
    (hlast : lastOf Row.index ((first :: rest).flatMap LogDataBlock.rows) =
      lastOf Row.index ((first' :: rest').flatMap LogDataBlock.rows))
    (hhead : (headBlock first rest).strip = (headBlock first' rest').strip) :
    mergeBlocks (first :: rest) = mergeBlocks (first' :: rest') := by
  obtain ⟨rows, hmerge, hrows⟩ := mergeBlocks_merges h
  obtain ⟨rows', hmerge', hrows'⟩ := mergeBlocks_merges h'
  have heq := hrows.eq_of_lastOf_eq hrows' (fun _ _ => Value.Below.asymm) hlast
  rw [hmerge, hmerge', heq, withRows_congr hhead]

/-- The head block's header does not depend on rows. -/
theorem strip_headBlock (first : LogDataBlock) (rest : List LogDataBlock) :
    (headBlock first rest).strip =
      (((first :: rest).find? LogDataBlock.hasHeader).map LogDataBlock.strip).getD first.strip := by
  change (((first :: rest).find? LogDataBlock.hasHeader).getD first).strip = _
  cases (first :: rest).find? LogDataBlock.hasHeader <;> rfl

/-- **Groups may be merged first.** -/
theorem mergeBlocks_groups {groups : List (List LogDataBlock)} (hne : ∀ g ∈ groups, g ≠ [])
    (h : Mergeable groups.flatten) :
    (groups.mapM mergeBlocks >>= mergeBlocks) = mergeBlocks groups.flatten := by
  have hmerged : ∀ g ∈ groups, ∃ merged, mergeBlocks g = .ok merged ∧ StandsFor g merged := by
    intro g hg
    cases g with
    | nil => exact absurd rfl (hne [] hg)
    | cons first rest =>
      obtain ⟨rows, hmerge, hrows⟩ := mergeBlocks_merges (h.of_mem hg)
      exact ⟨_, hmerge, standsFor_of_merges hrows⟩
  obtain ⟨merged, hmapM, hstands⟩ := exists_mapM_forall₂ hmerged
  rw [hmapM]
  change mergeBlocks merged = _
  obtain ⟨hlast, hfind, hfirst⟩ := standsFor_flatten hstands
  have hmergeable := h.of_standsFor hstands
  cases hstands with
  | nil => rfl
  | @cons g m groups merged hstand hrest =>
    cases g with
    | nil => exact absurd rfl (hne [] List.mem_cons_self)
    | cons first rest =>
      have hcons : ((first :: rest) :: groups).flatten = first :: (rest ++ groups.flatten) := rfl
      rw [hcons] at h hlast hfind hfirst ⊢
      refine mergeBlocks_congr hmergeable h hlast ?_
      rw [strip_headBlock, strip_headBlock, ← hfind]
      cases hhas : (m :: merged).find? LogDataBlock.hasHeader with
      | some b => rfl
      | none => exact Option.some.inj (hfirst hhas)

/-! ## 4. Deduping

A dedupe is a filter by index, or it raises.  Whether it raises is the same for all indices of one
kind, so a merge in between does not decide it: where one row makes the cursor incomparable, every
row does. -/

/-- The cursor does not depend on how a row is filled, only on its index. -/
def keeps (last : Value) (d : Direction) (r : Row) : Bool :=
  match r.index with
  | none => false
  | some i => decide (isBeyond i last d = .ok true)

/-- Rows with one index are kept or dropped together. -/
theorem keeps_congr {last : Value} {d : Direction} {r r' : Row} (h : r.index = r'.index) :
    keeps last d r = keeps last d r' := by
  rw [keeps, keeps, h]

/-- A dedupe that raises nothing is a filter. -/
theorem keepBeyond_filter {last : Value} {d : Direction} :
    ∀ {rows : List Row}, (∀ r ∈ rows, ∀ i, r.index = some i → ∃ b, isBeyond i last d = .ok b) →
      keepBeyond last d rows = .ok (rows.filter (keeps last d))
  | [], _ => rfl
  | r :: rows, h => by
    have ih := keepBeyond_filter fun r' hr' => h r' (List.mem_cons_of_mem _ hr')
    cases hi : r.index with
    | none => simp [keepBeyond, hi, ih, bind, Except.bind, keeps]
    | some i =>
      obtain ⟨b, hb⟩ := h r List.mem_cons_self i hi
      cases b <;> simp [keepBeyond, hi, hb, ih, bind, Except.bind, keeps]

/-- A row whose index cannot be compared with the cursor makes a dedupe fail. -/
theorem keepBeyond_error {last : Value} {d : Direction} :
    ∀ {rows : List Row},
      (∀ r ∈ rows, ∀ i, r.index = some i → isBeyond i last d = .error .typeError) →
      (∃ r ∈ rows, r.index ≠ none) → keepBeyond last d rows = .error .typeError
  | [], _, h => by
    obtain ⟨r, hr, -⟩ := h
    cases hr
  | r :: rows, h, hex => by
    cases hi : r.index with
    | none =>
      have hrest : ∃ r ∈ rows, r.index ≠ none := by
        obtain ⟨r', hr', hne⟩ := hex
        rcases List.mem_cons.mp hr' with rfl | hr'
        · exact absurd hi hne
        · exact ⟨r', hr', hne⟩
      have ih := keepBeyond_error (fun r' hr' => h r' (List.mem_cons_of_mem _ hr')) hrest
      simp [keepBeyond, hi, ih, bind, Except.bind]
    | some i => simp [keepBeyond, hi, h r List.mem_cons_self i hi, bind, Except.bind]

/-- A comparison with the cursor gives an answer or raises `TypeError`. -/
theorem isBeyond_cases (i last : Value) (d : Direction) :
    (∃ b, isBeyond i last d = .ok b) ∨ isBeyond i last d = .error .typeError := by
  cases d <;> cases i <;> cases last <;> simp [isBeyond, aware, Value.lt?, Datetime.replaceUtc]

/-- Indices that can be compared with each other can all be compared with the cursor, or none. -/
theorem isBeyond_ok_of_comparable {i j : Value} (h : i.comparable j = true) (last : Value)
    (d : Direction) (hi : ∃ b, isBeyond i last d = .ok b) : ∃ b, isBeyond j last d = .ok b := by
  cases d <;> cases i <;> cases j <;> cases last <;>
    simp_all [isBeyond, aware, Value.lt?, Value.comparable, Datetime.replaceUtc]

/-- The cursor can be compared with all indices of some rows, or with none of them. -/
theorem Mutual.comparable_cursor {rows : List Row} (h : Mutual rows) (last : Value)
    (d : Direction) :
    (∀ r ∈ rows, ∀ i, r.index = some i → ∃ b, isBeyond i last d = .ok b) ∨
    (∃ r ∈ rows, r.index ≠ none) ∧
      ∀ r ∈ rows, ∀ i, r.index = some i → isBeyond i last d = .error .typeError := by
  by_cases hok : ∀ r ∈ rows, ∀ i, r.index = some i → ∃ b, isBeyond i last d = .ok b
  · exact Or.inl hok
  · push Not at hok
    obtain ⟨r, hr, i, hi, hno⟩ := hok
    refine Or.inr ⟨⟨r, hr, by rw [hi]; exact Option.some_ne_none i⟩, fun r' hr' j hj => ?_⟩
    rcases isBeyond_cases j last d with hokj | herr
    · obtain ⟨b, hb⟩ := isBeyond_ok_of_comparable (h.pair hr' hr hj hi).1 last d hokj
      exact absurd hb (hno b)
    · exact herr

/-- If some call raises this error and no other call raises another, the list of them raises it. -/
theorem mapM_eq_error {ε α β : Type} {f : α → Except ε β} {e : ε} :
    ∀ {l : List α}, (∀ a ∈ l, f a = .error e ∨ ∃ b, f a = .ok b) → (∃ a ∈ l, f a = .error e) →
      l.mapM f = .error e
  | [], _, h => by
    obtain ⟨a, ha, -⟩ := h
    cases ha
  | a :: l, h, hex => by
    rw [List.mapM_cons]
    rcases h a List.mem_cons_self with herr | ⟨b, hb⟩
    · rw [herr]
      rfl
    · have hrest : ∃ a ∈ l, f a = .error e := by
        obtain ⟨a', ha', herr⟩ := hex
        rcases List.mem_cons.mp ha' with rfl | ha'
        · exact absurd (hb.symm.trans herr) (by simp)
        · exact ⟨a', ha', herr⟩
      rw [hb, mapM_eq_error (fun a' ha' => h a' (List.mem_cons_of_mem _ ha')) hrest]
      rfl

/-- A block with the rows that a dedupe keeps. -/
def LogDataBlock.kept (last : Value) (d : Direction) (b : LogDataBlock) : LogDataBlock :=
  { b with rows := b.rows.filter (keeps last d) }

/-- The rows that are kept of some blocks are those kept of each. -/
theorem flatMap_kept (last : Value) (d : Direction) (blocks : List LogDataBlock) :
    (blocks.map (LogDataBlock.kept last d)).flatMap LogDataBlock.rows =
      (blocks.flatMap LogDataBlock.rows).filter (keeps last d) := by
  rw [List.flatMap_map, List.filter_flatMap]
  rfl

theorem Mergeable.kept {blocks : List LogDataBlock} (h : Mergeable blocks) (last : Value)
    (d : Direction) : Mergeable (blocks.map (LogDataBlock.kept last d)) := by
  obtain ⟨⟨mnemonics, hheader⟩, hindices⟩ := h
  refine ⟨⟨mnemonics, fun b hb => ?_⟩, ?_⟩
  · obtain ⟨b', hb', rfl⟩ := List.mem_map.mp hb
    exact hheader b' hb'
  · rw [flatMap_kept]
    exact hindices.subset List.filter_sublist.subset

/-- A dedupe that can compare every index keeps those beyond the cursor. -/
theorem dedupeBoundary_ok {b : LogDataBlock} {last : Value} {d : Direction}
    (h : ∀ r ∈ b.rows, ∀ i, r.index = some i → ∃ keep, isBeyond i last d = .ok keep) :
    dedupeBoundary b (some last) d = .ok (b.kept last d) := by
  simp only [dedupeBoundary, keepBeyond_filter h, Except.map, LogDataBlock.kept]

/-- A dedupe that can compare none of them raises. -/
theorem dedupeBoundary_error {b : LogDataBlock} {last : Value} {d : Direction}
    (h : ∀ r ∈ b.rows, ∀ i, r.index = some i → isBeyond i last d = .error .typeError)
    (hex : ∃ r ∈ b.rows, r.index ≠ none) :
    dedupeBoundary b (some last) d = .error .typeError := by
  simp only [dedupeBoundary, keepBeyond_error h hex, Except.map]

/-- The header is the same after a dedupe of each block. -/
theorem strip_headBlock_kept (last : Value) (d : Direction) (first : LogDataBlock)
    (rest : List LogDataBlock) :
    (headBlock (first.kept last d) (rest.map (LogDataBlock.kept last d))).strip =
      (headBlock first rest).strip := by
  rw [strip_headBlock, strip_headBlock, ← List.map_cons, List.find?_map, Option.map_map]
  rfl

/-- **Deduping after the merge is deduping before it**, errors included. -/
theorem dedupeBoundary_mergeBlocks {blocks : List LogDataBlock} (h : Mergeable blocks)
    (cursor : Option Value) (d : Direction) :
    (mergeBlocks blocks >>= fun b => dedupeBoundary b cursor d) =
      (blocks.mapM (fun b => dedupeBoundary b cursor d) >>= mergeBlocks) := by
  cases blocks with
  | nil => rfl
  | cons first rest =>
    obtain ⟨rows, hmerge, hrows⟩ := mergeBlocks_merges h
    rw [hmerge]
    cases cursor with
    | none =>
      have hmapM : (first :: rest).mapM (fun b => dedupeBoundary b none d) = .ok (first :: rest) := by
        have hid : ∀ b ∈ first :: rest, dedupeBoundary b none d = .ok (id b) := fun b _ => rfl
        rw [mapM_eq_ok hid, List.map_id]
      rw [hmapM]
      exact hmerge.symm
    | some last =>
      have hsub : ∀ r ∈ rows, r ∈ (first :: rest).flatMap LogDataBlock.rows := by
        intro r hr
        obtain ⟨k, hk⟩ := hrows.mem_iff.mp hr
        exact (key_of_lastOf hk).1
      have hin : ∀ b ∈ first :: rest, ∀ r ∈ b.rows, r ∈ (first :: rest).flatMap LogDataBlock.rows :=
        fun b hb r hr => List.mem_flatMap.mpr ⟨b, hb, hr⟩
      rcases h.indices.comparable_cursor last d with hok | ⟨⟨r, hr, hne⟩, herr⟩
      · have hblocks : ∀ b ∈ first :: rest,
            dedupeBoundary b (some last) d = .ok (b.kept last d) := fun b hb =>
          dedupeBoundary_ok fun r hr => hok r (hin b hb r hr)
        rw [mapM_eq_ok hblocks]
        simp only [bind, Except.bind]
        rw [dedupeBoundary_ok fun r hr => hok r (hsub r hr), List.map_cons]
        obtain ⟨rows', hmerge', hrows'⟩ := mergeBlocks_merges (h.kept last d)
        rw [← List.map_cons, flatMap_kept] at hrows'
        have heq := (hrows.filter fun r r' => keeps_congr).eq_of_lastOf_eq hrows'
          (fun _ _ => Value.Below.asymm) rfl
        rw [hmerge', LogDataBlock.kept]
        dsimp only
        rw [heq]
        exact congrArg Except.ok (withRows_congr (strip_headBlock_kept last d first rest).symm rows')
      · -- the row with an index is in the merge under the same index, and in its block
        obtain ⟨i, hi⟩ := Option.ne_none_iff_exists'.mp hne
        obtain ⟨r', hr'⟩ := exists_lastOf hr hi
        have hmem : r' ∈ rows := hrows.mem_iff.mpr ⟨i, hr'⟩
        have hkeyed : r'.index ≠ none := hrows.keyed r' hmem
        have hmapM : (first :: rest).mapM (fun b => dedupeBoundary b (some last) d) =
            .error .typeError := by
          refine mapM_eq_error (fun b hb => ?_) ?_
          · by_cases hex : ∃ r ∈ b.rows, r.index ≠ none
            · exact Or.inl (dedupeBoundary_error (fun r hr => herr r (hin b hb r hr)) hex)
            · refine Or.inr ⟨_, dedupeBoundary_ok fun r hr i hi => absurd ⟨r, hr, ?_⟩ hex⟩
              rw [hi]
              exact Option.some_ne_none i
          · obtain ⟨b, hb, hr⟩ := List.mem_flatMap.mp hr
            exact ⟨b, hb, dedupeBoundary_error (fun r hr => herr r (hin b hb r hr)) ⟨r, hr, hne⟩⟩
        rw [hmapM]
        exact dedupeBoundary_error (fun r hr => herr r (hsub r hr)) ⟨r', hmem, hkeyed⟩

theorem keepBeyond_idem {last : Value} {d : Direction} :
    ∀ {rows kept : List Row}, keepBeyond last d rows = .ok kept → keepBeyond last d kept = .ok kept
  | [], kept, h => by
    obtain rfl := Except.ok.inj h
    rfl
  | r :: rows, kept, h => by
    cases hi : r.index with
    | none =>
      simp only [keepBeyond, hi] at h
      obtain ⟨keep, hkeep, h⟩ := bind_eq_ok.mp h
      obtain ⟨kept', hrest, h⟩ := bind_eq_ok.mp h
      obtain rfl := Except.ok.inj hkeep
      obtain rfl := Except.ok.inj h
      exact keepBeyond_idem hrest
    | some i =>
      simp only [keepBeyond, hi] at h
      obtain ⟨keep, hkeep, h⟩ := bind_eq_ok.mp h
      obtain ⟨kept', hrest, h⟩ := bind_eq_ok.mp h
      have ih := keepBeyond_idem hrest
      obtain rfl := Except.ok.inj h
      cases keep with
      | false => exact ih
      | true => simp [keepBeyond, hi, hkeep, ih, bind, Except.bind]

/-- **Deduping again changes nothing.** -/
theorem dedupeBoundary_idem {b b' : LogDataBlock} {cursor : Option Value} {d : Direction}
    (h : dedupeBoundary b cursor d = .ok b') : dedupeBoundary b' cursor d = .ok b' := by
  cases cursor with
  | none => rfl
  | some last =>
    obtain ⟨kept, hkept, rfl⟩ := map_eq_ok.mp h
    simp only [dedupeBoundary, keepBeyond_idem hkept, Except.map]

/-! ## 5. The laws

The three laws, for all lists of mergeable blocks, all ways to group them, and all cursors. -/

/-- **Merging is independent of how rows were batched and commutes with dedupe.**

The first law is what makes a page size a matter of the server alone: wherever it cuts, the client
ends with the same block.  The second is why it does no harm that the scheduler dedupes once and
the tests do it page by page.  The third says that a call that is repeated on its own result has
nothing to do. -/
theorem merge_laws {blocks : List LogDataBlock} (h : Mergeable blocks) :
    (blocks ≠ [] → ∃ merged, mergeBlocks blocks = .ok merged) ∧
    (∀ merged, mergeBlocks blocks = .ok merged →
      Merges Row.index Value.Below (blocks.flatMap LogDataBlock.rows) merged.rows ∧
      ∀ cursor d deduped, dedupeBoundary merged cursor d = .ok deduped →
        dedupeBoundary deduped cursor d = .ok deduped) ∧
    (∀ groups : List (List LogDataBlock), groups.flatten = blocks → (∀ g ∈ groups, g ≠ []) →
      (groups.mapM mergeBlocks >>= mergeBlocks) = mergeBlocks blocks) ∧
    ∀ cursor d, (mergeBlocks blocks >>= fun b => dedupeBoundary b cursor d) =
      (blocks.mapM (fun b => dedupeBoundary b cursor d) >>= mergeBlocks) := by
  refine ⟨fun hne => ?_, fun merged hmerged => ⟨?_, fun cursor d deduped => dedupeBoundary_idem⟩, ?_,
    dedupeBoundary_mergeBlocks h⟩
  · cases blocks with
    | nil => exact absurd rfl hne
    | cons first rest =>
      obtain ⟨rows, hmerge, -⟩ := mergeBlocks_merges h
      exact ⟨_, hmerge⟩
  · cases blocks with
    | nil => cases hmerged
    | cons first rest =>
      obtain ⟨rows, hmerge, hrows⟩ := mergeBlocks_merges h
      obtain rfl := Except.ok.inj (hmerge.symm.trans hmerged)
      exact hrows
  · rintro groups rfl hne
    exact mergeBlocks_groups hne h

/-- Two pages that overlap in one row and have a row without an index. -/
def overlapping : List LogDataBlock :=
  [⟨["DEPTH".toList, "GR".toList], [none, none], .measuredDepth,
      [⟨some (.num (.ofRatio 10 1)), [some (.num (.ofRatio 1 1))]⟩,
       ⟨some (.num (.ofRatio 11 1)), [none]⟩]⟩,
   ⟨["DEPTH".toList, "GR".toList], [none, none], .measuredDepth,
      [⟨some (.num (.ofRatio 11 1)), [some (.num (.ofRatio 2 1))]⟩, ⟨none, [none]⟩]⟩]

theorem mergeable_overlapping : Mergeable overlapping :=
  ⟨⟨["DEPTH".toList, "GR".toList], by decide⟩, by decide +kernel⟩

theorem merge_laws_overlapping :
    (overlapping ≠ [] → ∃ merged, mergeBlocks overlapping = .ok merged) ∧
    (∀ merged, mergeBlocks overlapping = .ok merged →
      Merges Row.index Value.Below (overlapping.flatMap LogDataBlock.rows) merged.rows ∧
      ∀ cursor d deduped, dedupeBoundary merged cursor d = .ok deduped →
        dedupeBoundary deduped cursor d = .ok deduped) ∧
    (∀ groups : List (List LogDataBlock), groups.flatten = overlapping → (∀ g ∈ groups, g ≠ []) →
      (groups.mapM mergeBlocks >>= mergeBlocks) = mergeBlocks overlapping) ∧
    ∀ cursor d, (mergeBlocks overlapping >>= fun b => dedupeBoundary b cursor d) =
      (overlapping.mapM (fun b => dedupeBoundary b cursor d) >>= mergeBlocks) :=
  merge_laws mergeable_overlapping

end WitsmlViewer
