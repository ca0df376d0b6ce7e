/-
# Rows whose index may be `nan`

The polling helpers on a block whose indices are numbers of any sort, or instants.  `Polling`
covers the blocks whose indices are in order with each other.  Of the values that the decoder takes
for an index only `nan` is not: it equals no index, not even itself, so it stays an entry of its
own in a merge, and `sorted` and `max` do with it what their comparisons happen to bring about.

`ingestBlock_spec` says what of that can be seen from outside.  The samples that are handed on are
the same whatever the order; the cursor is the most advanced index of the page, `nan` passed over,
unless `nan` comes first.

Sorting a list with a `nan` in it has no specification that one would want to use: the result is a
permutation that depends on the algorithm.  Two facts about CPython's sort are enough here, and
they are proved of its run detection and its insertion: the result is a permutation, and an element
that nothing precedes and that precedes nothing stays in front if it was there (`Py.Sorting`).
`max` and `min` scan from the left and replace their candidate when a comparison says so; a `nan`
in front is never replaced, and a later one never replaces.
-/
import WitsmlViewer.Polling

namespace WitsmlViewer

open Py

/-! ## 1. Numbers and instants

Numbers, infinities and `nan` included, are compared without an exception, and so are instants in
UTC.  This is the weakest condition under which no helper raises. -/

/-- A number of any sort, or an instant in UTC. -/
def Value.Heard (t : IndexType) : Value → Prop
  | .num _ => t.isTime = false
  | .text _ => False
  | .dt d => t.isTime = true ∧ d.aware = true

section Values

variable {t : IndexType} {a b : Value}

/-- Such a value can be ordered unless it is `nan`. -/
theorem Value.Heard.orders (h : a.Heard t) (hne : a ≠ .num .nan) : a.Orders t := by
  cases a with
  | num x => exact ⟨h, fun hx => hne (congrArg Value.num hx)⟩
  | text s => exact h
  | dt d => exact h

theorem Value.Orders.heard (h : a.Orders t) : a.Heard t := by
  cases a with
  | num x => exact h.1
  | text s => exact h
  | dt d => exact h

theorem Value.comparable_self (a : Value) : a.comparable a = true := by
  cases a <;> simp [Value.comparable]

/-- Whether two values can be compared does not depend on their order. -/
theorem Value.comparable_comm (a b : Value) : a.comparable b = b.comparable a := by
  cases a <;> cases b <;> simp [Value.comparable, eq_comm]

theorem Value.Heard.comparable (ha : a.Heard t) (hb : b.Heard t) : a.comparable b = true := by
  cases a <;> cases b <;> simp_all [Value.Heard, Value.comparable]

theorem Value.Heard.aware_eq (h : a.Heard t) : aware a = a := by
  cases a with
  | num x => rfl
  | text s => rfl
  | dt d => rw [aware, Datetime.replaceUtc_of_aware h.2]

/-- Nothing holds of `nan`. -/
theorem ordered_of_before (h : a.before b = true) : a ≠ .num .nan ∧ b ≠ .num .nan := by
  have hlt : ∀ x y : Float64, x.lt y = true → x ≠ .nan ∧ y ≠ .nan := by
    intro x y hxy
    simp only [Float64.lt, Bool.and_eq_true, bne_iff_ne] at hxy
    exact hxy.1
  cases a <;> cases b <;> simp_all [Value.before, Value.lt?]
  rename_i x y
  exact hlt x y h

/-- With a `nan` every comparison is false, and none raises. -/
theorem Value.Heard.lt?_nan (ha : a.Heard t) (hb : b.Heard t)
    (h : a = .num .nan ∨ b = .num .nan) : a.lt? b = .ok false := by
  rcases h with rfl | rfl
  · cases b <;> simp_all [Value.Heard, Value.lt?, Float64.lt]
  · cases a <;> simp_all [Value.Heard, Value.lt?, Float64.lt]

end Values

/-! ## 2. The furthest index

The cursor that a page leaves is found by `max` or `min`.  `Leads` describes the outcome without a
reference to the scan. -/

/-- What `max` finds in growth direction: `nan` if that comes first, and otherwise the most advanced of
the indices that are in order. -/
inductive Leads (d : Direction) : List Value → Option Value → Prop
  | nothing : Leads d [] none
  | unordered (is : List Value) : Leads d (.num .nan :: is) (some (.num .nan))
  | furthest {i m : Value} {is : List Value} : i ≠ .num .nan → m ∈ i :: is → m ≠ .num .nan →
      (∀ u ∈ i :: is, u ≠ .num .nan → growthKey d u ≤ growthKey d m) → Leads d (i :: is) (some m)

/-- What is found is one of the values. -/
theorem extremum_cases {smallest : Bool} {vs : List Value} {o : Option Value}
    (h : extremum smallest vs = .ok o) : (vs = [] ∧ o = none) ∨ ∃ m ∈ vs, o = some m := by
  have hfold : ∀ (us : List Value) (v m : Value),
      us.foldlM (extremum.better smallest) v = .ok m → m ∈ v :: us := by
    intro us
    induction us with
    | nil =>
      intro v m hm
      rw [Except.ok.inj hm]
      exact List.mem_singleton_self m
    | cons u us ih =>
      intro v m hm
      obtain ⟨b, hb, hrest⟩ := bind_eq_ok.mp hm
      obtain ⟨c, -, rfl⟩ := map_eq_ok.mp hb
      rcases List.mem_cons.mp (ih _ _ hrest) with rfl | hmem
      · cases c <;> simp
      · simp [hmem]
  cases vs with
  | nil => exact Or.inl ⟨rfl, (Except.ok.inj h).symm⟩
  | cons v vs =>
    obtain ⟨m, hm, rfl⟩ := map_eq_ok.mp h
    exact Or.inr ⟨m, hfold vs v m hm, rfl⟩

section Extremum

variable {t : IndexType} {d : Direction}

/-- The better of two indices.  The candidate is a proper index; the new one may be a `nan`, and
then the candidate stays. -/
theorem better_spec {v u : Value} (hv : v.Heard t) (hne : v ≠ .num .nan) (hu : u.Heard t) :
    ∃ b, extremum.better (d == .decreasing) v u = .ok b ∧ (b = v ∨ b = u) ∧ b ≠ .num .nan ∧
      growthKey d v ≤ growthKey d b ∧ (u ≠ .num .nan → growthKey d u ≤ growthKey d b) := by
  by_cases hnan : u = .num .nan
  · refine ⟨v, ?_, Or.inl rfl, hne, le_refl _, fun h => absurd hnan h⟩
    rw [extremum.better]
    cases d
    · simp [hv.lt?_nan hu (Or.inr hnan), Except.map]
    · simp [hu.lt?_nan hv (Or.inl hnan), Except.map]
  · obtain ⟨m, hm, hrun, hmax⟩ := @extremum_spec t d [v, u]
      (by simp [hv.orders hne, hu.orders hnan]) (List.cons_ne_nil _ _)
    have hbetter : (extremum.better (d == .decreasing) v u).map some = .ok (some m) := by
      rw [← hrun, extremum, List.foldlM_cons]
      cases extremum.better (d == .decreasing) v u <;> rfl
    obtain ⟨b, hb, hsome⟩ := map_eq_ok.mp hbetter
    obtain rfl := Option.some.inj hsome
    have hb' : b = v ∨ b = u := by simpa using hm
    refine ⟨b, hb, hb', ?_, hmax v (by simp), fun _ => hmax u (by simp)⟩
    rcases hb' with rfl | rfl <;> assumption

/-- The scan finds what leads.  By induction on the values that are still to come: the next one
replaces the candidate if it is further along and in order with it. -/
theorem extremum_leads {vs : List Value} (h : ∀ v ∈ vs, v.Heard t) :
    ∃ m, extremum (d == .decreasing) vs = .ok m ∧ Leads d vs m := by
  have hordered : ∀ (us : List Value) (v : Value), v.Heard t → v ≠ .num .nan →
      (∀ u ∈ us, u.Heard t) → ∃ m, us.foldlM (extremum.better (d == .decreasing)) v = .ok m ∧
        m ∈ v :: us ∧ m ≠ .num .nan ∧
        ∀ u ∈ v :: us, u ≠ .num .nan → growthKey d u ≤ growthKey d m := by
    intro us
    induction us with
    | nil => exact fun v _ hne _ => ⟨v, rfl, by simp, hne, by simp⟩
    | cons u us ih =>
      intro v hv hne hus
      have hu : u.Heard t := hus u (by simp)
      obtain ⟨b, hbetter, hb, hbne, hbv, hbu⟩ := better_spec (d := d) hv hne hu
      have hbh : b.Heard t := by rcases hb with rfl | rfl <;> assumption
      obtain ⟨m, hrun, hm, hmne, hmax⟩ := ih b hbh hbne fun w hw => hus w (by simp [hw])
      refine ⟨m, by rw [List.foldlM_cons, hbetter]; exact hrun, ?_, hmne, fun w hw hwne => ?_⟩
      · rcases List.mem_cons.mp hm with rfl | hm
        · rcases hb with rfl | rfl <;> simp
        · simp [hm]
      · have hbm := hmax b (by simp) hbne
        rcases List.mem_cons.mp hw with rfl | hw
        · exact hbv.trans hbm
        · rcases List.mem_cons.mp hw with rfl | hw
          · exact (hbu hwne).trans hbm
          · exact hmax w (by simp [hw]) hwne
  have hnan : ∀ us : List Value, t.isTime = false → (∀ u ∈ us, u.Heard t) →
      us.foldlM (extremum.better (d == .decreasing)) (Value.num .nan) = .ok (Value.num .nan) := by
    intro us ht hus
    induction us with
    | nil => rfl
    | cons u us ih =>
      have hself : (Value.num Float64.nan).Heard t := ht
      have hu := hus u (by simp)
      have hstep : extremum.better (d == .decreasing) (.num .nan) u = .ok (.num .nan) := by
        rw [extremum.better]
        cases d
        · simp [hself.lt?_nan hu (Or.inl rfl), Except.map]
        · simp [hu.lt?_nan hself (Or.inr rfl), Except.map]
      rw [List.foldlM_cons, hstep]
      exact ih fun w hw => hus w (by simp [hw])
  cases vs with
  | nil => exact ⟨none, rfl, .nothing⟩
  | cons v vs =>
    have hv := h v (by simp)
    have hvs : ∀ u ∈ vs, u.Heard t := fun u hu => h u (by simp [hu])
    by_cases hne : v = .num .nan
    · subst hne
      exact ⟨_, by rw [extremum, hnan vs hv hvs]; rfl, .unordered vs⟩
    · obtain ⟨m, hrun, hm, hmne, hmax⟩ := hordered vs v hv hne hvs
      exact ⟨some m, by rw [extremum, hrun]; rfl, .furthest hne hm hmne hmax⟩

/-- The order of the indices matters for what comes first only, and repetitions do not matter. -/
theorem Leads.congr {is js : List Value} {m : Option Value} (h : Leads d is m)
    (hmem : ∀ i, i ∈ js ↔ i ∈ is)
    (hfront : (∃ i ∈ js.head?, i = .num .nan) ↔ ∃ i ∈ is.head?, i = .num .nan) : Leads d js m := by
  cases js with
  | nil =>
    obtain rfl : is = [] :=
      List.eq_nil_iff_forall_not_mem.mpr fun i hi => by simpa using (hmem i).mpr hi
    exact h
  | cons j js =>
    cases h with
    | nothing => exact absurd ((hmem j).mp List.mem_cons_self) List.not_mem_nil
    | unordered is =>
      obtain rfl : j = .num .nan := by simpa using hfront
      exact .unordered js
    | furthest hi hm hne hmax =>
      have hj : j ≠ .num .nan := by simpa [hi] using hfront
      exact .furthest hj ((hmem _).mpr hm) hne fun u hu => hmax u ((hmem u).mp hu)

/-- The furthest index is one of them. -/
theorem Leads.mem {is : List Value} {m : Value} (h : Leads d is (some m)) : m ∈ is := by
  cases h with
  | unordered is => exact List.mem_cons_self
  | furthest _ hm _ _ => exact hm

end Extremum

/-! ## 3. The dictionary of a merge

A dictionary whose keys may be `nan` holds one entry for each row with such a key, in the order
they came.  Everything else is as in `Polling`. -/

/-- One more row. -/
theorem indexRows_snoc (rows : List Row) (r : Row) :
    indexRows [] (rows ++ [r]) =
      r.index.elim (indexRows [] rows) fun i => (indexRows [] rows).set i r := by
  rw [indexRows, List.foldl_append, List.foldl_cons, List.foldl_nil]
  cases r.index <;> rfl

/-- No two keys are equal, `nan` being equal to none. -/
theorem distinct_indexRows (rows : List Row) : Dict.Distinct (indexRows [] rows) := by
  induction rows using List.reverseRecOn with
  | nil => exact Dict.distinct_nil
  | append_singleton rows r ih =>
    rw [indexRows_snoc]
    cases r.index with
    | none => exact ih
    | some i => exact Dict.distinct_set ih

/-- `nan` is no key that is found again, so every row with it has an entry.  Under any other index the
last row has one. -/
theorem mem_indexRows {rows : List Row} {i : Value} {r : Row} :
    (i, r) ∈ indexRows [] rows ↔ ∃ before after, rows = before ++ r :: after ∧ r.index = some i ∧
      ∀ r' ∈ after, ∀ j, r'.index = some j → (i == j) = false := by
  induction rows using List.reverseRecOn with
  | nil => simp [indexRows]
  | append_singleton rows last ih =>
    -- the last row is the entry's own, or it leaves the entry alone
    have hstep : (i, r) ∈ indexRows [] (rows ++ [last]) ↔ (r = last ∧ last.index = some i) ∨
        ((i, r) ∈ indexRows [] rows ∧ ∀ j, last.index = some j → (i == j) = false) := by
      rw [indexRows_snoc]
      cases hl : last.index with
      | none => simp
      | some j =>
        simp only [Option.elim_some, Option.some.injEq]
        constructor
        · intro he
          rcases Dict.mem_of_mem_set Value.eq_of_beq (distinct_indexRows rows) he with heq | ⟨he, hne⟩
          · obtain ⟨rfl, rfl⟩ := Prod.mk.inj heq
            exact Or.inl ⟨rfl, rfl⟩
          · exact Or.inr ⟨he, fun k hk => hk ▸ hne⟩
        · rintro (⟨rfl, rfl⟩ | ⟨he, hne⟩)
          · exact Dict.mem_set_self Value.eq_of_beq _ _ _
          · exact Dict.mem_set_of_ne he (hne j rfl)
    rw [hstep, ih]
    constructor
    · rintro (⟨rfl, hi⟩ | ⟨⟨before, after, rfl, hi, hafter⟩, hlast⟩)
      · exact ⟨rows, [], rfl, hi, by simp⟩
      · refine ⟨before, after ++ [last], by simp, hi, fun r' hr' => ?_⟩
        rcases List.mem_append.mp hr' with hr' | hr'
        · exact hafter r' hr'
        · rw [List.mem_singleton.mp hr']
          exact hlast
    · rintro ⟨before, after, hsplit, hi, hafter⟩
      rcases List.eq_nil_or_concat after with rfl | ⟨after, end_, rfl⟩
      · obtain ⟨rfl, heq⟩ := List.append_inj' hsplit rfl
        obtain rfl := (List.cons.inj heq).1
        exact Or.inl ⟨rfl, hi⟩
      · rw [List.concat_eq_append] at hsplit hafter
        have hsplit' : rows ++ [last] = (before ++ r :: after) ++ [end_] := by
          rw [hsplit]
          simp
        obtain ⟨rfl, heq⟩ := List.append_inj' hsplit' rfl
        obtain rfl := (List.cons.inj heq).1
        exact Or.inr ⟨⟨before, after, rfl, hi, fun r' hr' => hafter r' (by simp [hr'])⟩,
          fun j hj => hafter last (by simp) j hj⟩

/-- An entry is a row of the page under its own index. -/
theorem index_of_mem_indexRows {rows : List Row} {e : Value × Row} (he : e ∈ indexRows [] rows) :
    e.2 ∈ rows ∧ e.2.index = some e.1 := by
  obtain ⟨before, after, rfl, hi, -⟩ := mem_indexRows.mp he
  exact ⟨by simp, hi⟩

/-- Every index of a row has an entry. -/
theorem exists_mem_indexRows {rows : List Row} {r : Row} {i : Value} (hr : r ∈ rows)
    (hi : r.index = some i) : ∃ r', (i, r') ∈ indexRows [] rows := by
  induction rows using List.reverseRecOn with
  | nil => exact absurd hr List.not_mem_nil
  | append_singleton rows last ih =>
    by_cases hlast : last.index = some i
    · exact ⟨last, mem_indexRows.mpr ⟨rows, [], rfl, hlast, by simp⟩⟩
    · have hold : r ∈ rows := by
        rcases List.mem_append.mp hr with hr | hr
        · exact hr
        · rw [List.mem_singleton.mp hr] at hi
          exact absurd hi hlast
      obtain ⟨r', he⟩ := ih hold
      obtain ⟨before, after, rfl, hi', hafter⟩ := mem_indexRows.mp he
      refine ⟨r', mem_indexRows.mpr ⟨before, after ++ [last], by simp, hi', fun r'' hr'' j hj => ?_⟩⟩
      rcases List.mem_append.mp hr'' with hr'' | hr''
      · exact hafter r'' hr'' j hj
      · rw [List.mem_singleton.mp hr''] at hj
        rw [Bool.eq_false_iff]
        exact fun heq => hlast (by rw [hj, Value.eq_of_beq _ _ heq])

/-- Writing an entry and then selecting by keys is selecting and then writing, if the key is
selected. -/
theorem filter_set {q : Value → Bool} (k : Value) (r : Row) (d : Dict Value Row) :
    (d.set k r).filter (fun e => q e.1) =
      if q k then Dict.set (d.filter fun e => q e.1) k r else d.filter fun e => q e.1 := by
  induction d with
  | nil => by_cases hq : q k <;> simp [Dict.set, hq]
  | cons e d ih =>
    obtain ⟨k', r'⟩ := e
    by_cases hk : (k' == k) = true
    · obtain rfl := Value.eq_of_beq _ _ hk
      by_cases hq : q k' <;> simp [Dict.set, hk, hq]
    · by_cases hq : q k <;> by_cases hq' : q k' <;> simp_all [Dict.set]

/-- The entries of some keys come from the rows that have them. -/
theorem filter_indexRows (q : Value → Bool) (rows : List Row) :
    (indexRows [] rows).filter (fun e => q e.1) =
      indexRows [] (rows.filter fun r => r.index.any q) := by
  induction rows using List.reverseRecOn with
  | nil => rfl
  | append_singleton rows r ih =>
    rw [List.filter_append, indexRows_snoc]
    cases hr : r.index with
    | none => simp [hr, ih]
    | some i =>
      by_cases hq : q i
      · have hkeep : [r].filter (fun r => r.index.any q) = [r] := by simp [hr, hq]
        rw [hkeep, indexRows_snoc, hr]
        simp only [Option.elim_some, filter_set, hq, if_true, ih]
      · have hdrop : [r].filter (fun r => r.index.any q) = [] := by simp [hr, hq]
        rw [hdrop, List.append_nil]
        simp only [Option.elim_some, filter_set, hq, Bool.false_eq_true, if_false, ih]

/-- The first entry is the first row's that has an index. -/
theorem head?_indexRows (rows : List Row) :
    (indexRows [] rows).head?.map Prod.fst = (rows.filterMap Row.index).head? := by
  have hset : ∀ (d : Dict Value Row) (k : Value) (r : Row),
      (d.set k r).head?.map Prod.fst = (d.head?.map Prod.fst).or (some k) := by
    intro d k r
    cases d with
    | nil => rfl
    | cons e d =>
      obtain ⟨k', r'⟩ := e
      by_cases hk : (k' == k) = true <;> simp [Dict.set, hk]
  induction rows using List.reverseRecOn with
  | nil => rfl
  | append_singleton rows r ih =>
    rw [indexRows_snoc, List.filterMap_append, List.head?_append, ← ih]
    cases hr : r.index with
    | none => simp [hr]
    | some i => simp [hr, hset]

/-! ## 4. A page through the helpers

The path of one page from the decoded rows to the cursor.  It is the composition of the helpers in
the order of `_do_ingest_log`, for a fetch of one page. -/

/-- What becomes of one page: the continuation of the page, the merge, the dedupe, the samples, and the
cursor that is left. -/
def ingestBlock (cfg : Settings) (d : Direction) (last : Option Value) (block : LogDataBlock) :
    Except PyError (List CurveSample × Option Value) := do
  let _ ← continuationIndex block d
  let merged ← mergeBlocks [block]
  let deduped ← dedupeBoundary merged last d
  let samples ← deduped.samples cfg
  let cursor ← continuationIndex merged d
  .ok (samples, cursor.or last)

/-- Whether an index passes the dedupe.  `nan` is beyond no cursor, but without one all pass. -/
def kept (d : Direction) (last : Option Value) (i : Value) : Bool :=
  last.all fun v => i ≠ .num .nan && growthKey d v < growthKey d i

section Page

variable {t : IndexType} {block : LogDataBlock} {d : Direction} {last : Option Value}

/-- The continuation of a page is what leads among its indices. -/
theorem continuationIndex_leads (h : ∀ r ∈ block.rows, ∀ i, r.index = some i → i.Heard t) :
    ∃ m, continuationIndex block d = .ok m ∧ Leads d (block.rows.filterMap Row.index) m := by
  have hindices : rowIndices block = block.rows.filterMap Row.index := by
    refine List.filterMap_congr fun r hr => ?_
    cases hi : r.index with
    | none => rfl
    | some i => simp [(h r hr i hi).aware_eq]
  rw [continuationIndex, hindices]
  refine extremum_leads (t := t) fun v hv => ?_
  obtain ⟨r, hr, hi⟩ := List.mem_filterMap.mp hv
  exact h r hr v hi

/-- A merge of one page is a permutation of its entries, with `nan` in front if it was there. -/
theorem mergeBlocks_page (h : ∀ r ∈ block.rows, ∀ i, r.index = some i → i.Heard t) :
    ∃ ordered : Dict Value Row, mergeBlocks [block] =
        .ok { block with rows := ordered.map Prod.snd } ∧
      ordered.Perm (indexRows [] block.rows) ∧
      ((∃ i ∈ (ordered.map Prod.fst).head?, i = .num .nan) ↔
        ∃ i ∈ (block.rows.filterMap Row.index).head?, i = .num .nan) := by
  set entries := indexRows [] block.rows with hentries
  have hheard : ∀ e ∈ entries, e.1.Heard t := by
    intro e he
    obtain ⟨hr, hi⟩ := index_of_mem_indexRows he
    exact h e.2 hr e.1 hi
  have hcomp : entries.Pairwise fun a b => a.1.comparable b.1 := by
    rw [List.pairwise_iff_forall_sublist]
    intro a b hab
    exact (hheard a (hab.subset (by simp))).comparable (hheard b (hab.subset (by simp)))
  have hhead : ([block].find? fun b => b.mnemonics ≠ []).getD block = block := by
    by_cases hm : block.mnemonics ≠ [] <;> simp [hm]
  refine ⟨listSort (fun a b => a.1.before b.1) entries, ?_, listSort_perm _, ?_⟩
  · rw [mergeBlocks]
    simp only [hhead, List.foldl_cons, List.foldl_nil, ← hentries]
    rw [if_neg (by simp), sortedEntries, if_pos hcomp]
    rfl
  · have hfront := @head_listSort_iff _ (fun a b : Value × Row => a.1.before b.1)
      (fun e => e.1 = .num .nan) entries fun a b hab => ordered_of_before hab
    rw [← head?_indexRows, ← hentries, List.head?_map]
    simpa using hfront

/-- Being beyond a cursor, for an index of any sort. -/
theorem isBeyond_kept {i v : Value} (hi : i.Heard t) (hv : (aware v).Orders t) :
    isBeyond i v d = .ok (kept d (some v) i) := by
  by_cases hne : i = .num .nan
  · subst hne
    have hself : (Value.num Float64.nan).Heard t := hi
    have hleft : (aware v).lt? (aware (.num .nan)) = .ok false := hv.heard.lt?_nan hself (Or.inr rfl)
    have hright : (aware (.num .nan)).lt? (aware v) = .ok false := hself.lt?_nan hv.heard (Or.inl rfl)
    cases d <;> simp [isBeyond, kept, hleft, hright]
  · rw [isBeyond_eq (hi.orders hne) hv]
    simp [kept, hne]

theorem dedupeBoundary_kept (h : ∀ r ∈ block.rows, ∃ i, r.index = some i ∧ i.Heard t)
    (hlast : ∀ v, last = some v → (aware v).Orders t) :
    dedupeBoundary block last d =
      .ok { block with rows := block.rows.filter fun r => r.index.any (kept d last) } := by
  cases last with
  | none =>
    have hall : block.rows.filter (fun r => r.index.any (kept d none)) = block.rows := by
      refine List.filter_eq_self.mpr fun r hr => ?_
      obtain ⟨i, hi, -⟩ := h r hr
      simp [hi, kept]
    rw [hall]
    rfl
  | some v =>
    have hkeep : ∀ rows : List Row, (∀ r ∈ rows, ∃ i, r.index = some i ∧ i.Heard t) →
        keepBeyond v d rows = .ok (rows.filter fun r => r.index.any (kept d (some v))) := by
      intro rows
      induction rows with
      | nil => exact fun _ => rfl
      | cons r rows ih =>
        intro hrows
        obtain ⟨i, hi, hheard⟩ := hrows r (by simp)
        have hrest := ih fun r' hr' => hrows r' (by simp [hr'])
        simp only [keepBeyond, hi, isBeyond_kept hheard (hlast v rfl), hrest, bind, Except.bind,
          List.filter_cons, Option.any_some]
    rw [dedupeBoundary, hkeep block.rows h]
    rfl

/-- **What becomes of a page of numbers and instants.**

A merge arranges the entries in some order.  The samples do not depend on it but for their own order,
and the cursor depends on it in whether `nan` comes first, which no sorting changes. -/
theorem ingestBlock_spec (cfg : Settings)
    (h : ∀ r ∈ block.rows, ∀ i, r.index = some i → i.Heard t)
    (hlast : ∀ v, last = some v → (aware v).Orders t) :
    ∃ samples cursor, ingestBlock cfg d last block = .ok (samples, cursor.or last) ∧
      samples.Perm (((indexRows [] block.rows).filter fun e => kept d last e.1).flatMap
        fun e => block.samplesAt e.1 e.2) ∧
      Leads d (block.rows.filterMap Row.index) cursor := by
  obtain ⟨next, hnext, -⟩ := continuationIndex_leads (d := d) h
  obtain ⟨ordered, hmerge, hperm, hfront⟩ := mergeBlocks_page h
  have hentry : ∀ e ∈ ordered, e.2 ∈ block.rows ∧ e.2.index = some e.1 := fun e he =>
    index_of_mem_indexRows (hperm.mem_iff.mp he)
  have hrows : ∀ r ∈ ordered.map Prod.snd, ∃ i, r.index = some i ∧ i.Heard t := by
    intro r hr
    obtain ⟨e, he, rfl⟩ := List.mem_map.mp hr
    exact ⟨e.1, (hentry e he).2, h e.2 (hentry e he).1 e.1 (hentry e he).2⟩
  have hdedup := @dedupeBoundary_kept t { block with rows := ordered.map Prod.snd } d last
    hrows hlast
  have hindices : (ordered.map Prod.snd).filterMap Row.index = ordered.map Prod.fst := by
    rw [List.filterMap_map, ← List.filterMap_eq_map]
    exact List.filterMap_congr fun e he => (hentry e he).2
  obtain ⟨cursor, hcursor, hleads⟩ := @continuationIndex_leads t
    { block with rows := ordered.map Prod.snd } d fun r hr i hi => by
      obtain ⟨j, hj, hheard⟩ := hrows r hr
      rw [hi] at hj
      rw [Option.some.inj hj]
      exact hheard
  refine ⟨((ordered.filter fun e => kept d last e.1).map Prod.snd).flatMap block.samplesOf, cursor,
    ?_, ?_, ?_⟩
  · have hfilter : (ordered.map Prod.snd).filter (fun r => r.index.any (kept d last)) =
        (ordered.filter fun e => kept d last e.1).map Prod.snd := by
      rw [List.filter_map]
      refine congrArg _ (List.filter_congr fun e he => ?_)
      simp [(hentry e he).2]
    have hsamples := @samples_eq_of_no_text
      { block with rows := (ordered.filter fun e => kept d last e.1).map Prod.snd } cfg
      fun r hr s hs => by
        obtain ⟨e, he, rfl⟩ := List.mem_map.mp hr
        obtain ⟨j, hj, hheard⟩ := hrows e.2 (List.mem_map_of_mem (List.mem_filter.mp he).1)
        obtain rfl := Option.some.inj (hs.symm.trans hj)
        exact hheard
    simp only [ingestBlock, hnext, hmerge, hdedup, hcursor, bind, Except.bind]
    rw [hfilter, hsamples]
    rfl
  · have heach : ((ordered.filter fun e => kept d last e.1).map Prod.snd).flatMap block.samplesOf =
        (ordered.filter fun e => kept d last e.1).flatMap fun e => block.samplesAt e.1 e.2 := by
      rw [List.flatMap_map]
      refine List.flatMap_congr fun e he => ?_
      rw [LogDataBlock.samplesOf, (hentry e (List.mem_filter.mp he).1).2]
    rw [heach]
    exact (hperm.filter _).flatMap_right _
  · rw [hindices] at hleads
    refine hleads.congr (fun i => ?_) hfront.symm
    simp only [List.mem_filterMap, List.mem_map]
    constructor
    · rintro ⟨r, hr, hi⟩
      obtain ⟨r', he⟩ := exists_mem_indexRows hr hi
      exact ⟨(i, r'), hperm.mem_iff.mpr he, rfl⟩
    · rintro ⟨e, he, rfl⟩
      exact ⟨e.2, hentry e he⟩

/-- **A text for an index**: the merge compares it with all others, so they raise or are texts too,
and then the cursor is one.

A page of texts alone does not raise, since texts compare with each other.  The poll hands them on
and takes the largest for its cursor, and from then on every page with a number raises. -/
theorem ingestBlock_text {cfg : Settings} {samples : List CurveSample} {cursor : Option Value}
    {r : Row} {s : Str} (hr : r ∈ block.rows) (hs : r.index = some (.text s))
    (h : ingestBlock cfg d last block = .ok (samples, cursor)) : ∃ s', cursor = some (.text s') := by
  rw [ingestBlock] at h
  obtain ⟨next, -, h⟩ := bind_eq_ok.mp h
  obtain ⟨merged, hmerge, h⟩ := bind_eq_ok.mp h
  obtain ⟨deduped, -, h⟩ := bind_eq_ok.mp h
  obtain ⟨samples', -, h⟩ := bind_eq_ok.mp h
  obtain ⟨cont, hcont, h⟩ := bind_eq_ok.mp h
  obtain ⟨rfl, rfl⟩ := Prod.mk.inj (Except.ok.inj h)
  set entries := indexRows [] block.rows with hentries
  obtain ⟨r', he⟩ := exists_mem_indexRows hr hs
  rw [← hentries] at he
  have hhead : ([block].find? fun b => b.mnemonics ≠ []).getD block = block := by
    by_cases hm : block.mnemonics ≠ [] <;> simp [hm]
  rw [mergeBlocks] at hmerge
  simp only [hhead, List.foldl_cons, List.foldl_nil, ← hentries] at hmerge
  rw [if_neg (by simp)] at hmerge
  obtain ⟨ordered, hsort, hmerged⟩ := bind_eq_ok.mp hmerge
  obtain rfl := Except.ok.inj hmerged
  rw [sortedEntries] at hsort
  split at hsort
  · rename_i hcomp
    have hperm : ordered.Perm entries := by
      rw [← Except.ok.inj hsort]
      exact listSort_perm _
    have hsymm : Std.Symm fun a b : Value × Row => a.1.comparable b.1 = true :=
      ⟨fun a b hab => (Value.comparable_comm a.1 b.1).symm.trans hab⟩
    have htext : ∀ e ∈ ordered, ∃ w, e.1 = .text w := by
      intro e he'
      have hcmp := hcomp.forall_of_forall (fun e _ => e.1.comparable_self) he (hperm.mem_iff.mp he')
      obtain ⟨v, r''⟩ := e
      cases v with
      | text w => exact ⟨w, rfl⟩
      | num y => cases hcmp
      | dt y => cases hcmp
    have hindex : ∀ e ∈ ordered, e.2.index = some e.1 := fun e he' =>
      (index_of_mem_indexRows (hperm.mem_iff.mp he')).2
    rcases extremum_cases hcont with ⟨hnil, -⟩ | ⟨m, hm, rfl⟩
    · -- the merged page has the text's row, so it has an index
      have hmem : (Value.text s, r') ∈ ordered := hperm.mem_iff.mpr he
      have hin : Value.text s ∈ rowIndices { block with rows := ordered.map Prod.snd } :=
        List.mem_filterMap.mpr ⟨r', List.mem_map_of_mem (f := Prod.snd) hmem, by
          rw [hindex _ hmem]
          rfl⟩
      rw [hnil] at hin
      exact absurd hin List.not_mem_nil
    · obtain ⟨row, hrow, hm⟩ := List.mem_filterMap.mp hm
      obtain ⟨e, he', rfl⟩ := List.mem_map.mp hrow
      obtain ⟨w, hw⟩ := htext e he'
      rw [hindex e he', hw] at hm
      exact ⟨w, by rw [← Option.some.inj hm]; rfl⟩
  · cases hsort

end Page

end WitsmlViewer
