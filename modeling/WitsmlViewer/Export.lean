/-
# The newest samples of an export (`app.api.export`)

An export of `limit` samples merges what the warm store holds of a curve with its rows in
`curve_samples`.  The warm store is asked for the newest `limit` samples of each mnemonic; the
table is asked once, for all mnemonics together, and its `LIMIT` keeps the rows with the lowest
indices.

`newest_samples_iff`: of a series the export has the newest samples exactly if the warm buffer
alone has them, or holds everything that the `LIMIT` leaves out, and the float time stamps tell
them apart.

The query's order is ascending and its limit comes from the front.  So of a long history the export
gets the oldest rows, where the newest were meant; the limit is also shared by all curves that are
exported together, so what one curve gets of it depends on the others.  With a warm buffer as large
as the limit nothing of this shows.  It shows after a restart, when the buffer is short and the
history is long, and then the export has a hole in the middle.

The order of the rows in the table is not assumed.  Where the database leaves it open, between rows
of one index, any order is allowed (`Sorted`).
-/
import WitsmlViewer.Lib.Backfill
import WitsmlViewer.ReadPaths

namespace WitsmlViewer

open Py GrowingTable Backfill

/-! ## 1. The query

The query, with SQL's order on nullable columns.  Databases differ in where nulls stand; of the two
columns one is null for every row of a log, so it matters for queries over logs of both kinds, and
is left open. -/

/-- A column in ascending order: the nulls stand first or last, as the database has it. -/
def sqlColumn (nullsFirst : Bool) (x : Option ℤ) : ℤ ×ₗ ℤ :=
  toLex (if x.isNone then (if nullsFirst then -1 else 1) else 0, x.getD 0)

namespace CurveSampleRow

/-- What `ORDER BY index_float, index_dt` compares. -/
def orderKey (nullsFirst : Bool) (row : CurveSampleRow) : (ℤ ×ₗ ℤ) ×ₗ ℤ ×ₗ ℤ :=
  toLex (sqlColumn nullsFirst (row.indexFloat.map Float64.rank),
    sqlColumn nullsFirst (row.indexDt.map fun t => (t.micros : ℤ)))

/-- The `WHERE` clause. -/
def selected (wellUid : Str) (mnemonics : List Str) (row : CurveSampleRow) : Bool :=
  decide (row.wellUid = wellUid) && (decide (mnemonics = []) || decide (row.mnemonic ∈ mnemonics))

end CurveSampleRow

/-- The selected rows of a table, in an order that the database may put them. -/
structure Sorted (nullsFirst : Bool) (wellUid : Str) (mnemonics : List Str)
    (table ordered : List CurveSampleRow) : Prop where
  perm : ordered.Perm (table.filter fun r => r.selected wellUid mnemonics)
  ascending : ordered.Pairwise fun a b => a.orderKey nullsFirst ≤ b.orderKey nullsFirst

/-- `_history_samples` from the database's answer on; a read that fails gives nothing. -/
def historySamples (answer : Except PyError (List CurveSampleRow)) : Dict Str (List CurveSample) :=
  match answer with
  | .error _ => []
  | .ok rows => rows.foldl (fun out row =>
      out.set row.mnemonic ((out.get? row.mnemonic).getD [] ++ [rowToSample row])) []

/-- `_gather_curves` on a warm store and the database's answer. -/
def gatherWell (host : Host) (store : RingBufferStore) (wellUid : Str) (mnemonics : List Str)
    (limit : ℕ) (answer : Except PyError (List CurveSampleRow)) :
    Except PyError (Dict Str (List CurveSample)) :=
  gatherCurves host limit (store.getRecent wellUid mnemonics none (some limit))
    (historySamples answer)

/-- The answer's rows are grouped by mnemonic, in its order. -/
theorem historySamples_get? (rows : List CurveSampleRow) (mnem : Str) :
    ((historySamples (.ok rows)).get? mnem).getD [] =
      (rows.filter fun r => decide (r.mnemonic = mnem)).map rowToSample := by
  unfold historySamples
  dsimp only
  induction rows using List.reverseRecOn with
  | nil => rfl
  | append_singleton rows r ih =>
    rw [List.foldl_append, List.foldl_cons, List.foldl_nil, Dict.get?_set]
    by_cases hr : r.mnemonic = mnem
    · subst hr
      simp [ih]
    · simp [hr, ih]

/-! ## 2. The series of a curve

A series is what one curve of a well is meant to be: strictly ascending, all of it in the table,
the end of it in the warm buffer.  What the other curves have is arbitrary. -/

/-- The time stamp that the export orders by. -/
def CurveSample.stampRank (host : Host) (s : CurveSample) : ℤ := (s.index.stampD host).rank

/-- The samples of one curve of a well, strictly ascending: the table has them all, and the warm
buffer the last of them. -/
structure Series (t : IndexType) (store : RingBufferStore) (table : List CurveSampleRow)
    (wellUid mnem : Str) (S : List CurveSample) : Prop where
  ascending : Ordered (fun s : CurveSample => s.index.rank) S
  orders : ∀ s ∈ S, s.index.Orders t
  persisted : ((table.filter fun r => decide (r.wellUid = wellUid) &&
    decide (r.mnemonic = mnem)).map rowToSample).Perm S
  columns : ∀ r ∈ table, r.wellUid = wellUid → r.mnemonic = mnem →
    (r.indexFloat, r.indexDt) = indexColumns t (rowToSample r).index
  warm : store.buffer (wellUid, mnem) <:+ S

/-- Every index that the export reads is a depth or an instant in UTC. -/
structure ReadsIndices (store : RingBufferStore) (wellUid : Str) (mnemonics : List Str)
    (table : List CurveSampleRow) : Prop where
  warm : ∀ mnem ∈ mnemonics, ∀ s ∈ store.buffer (wellUid, mnem), ∃ t, s.index.Orders t
  table : ∀ r ∈ table, r.selected wellUid mnemonics = true → ∃ t, (rowToSample r).index.Orders t

namespace Value

variable {host : Host} {t : IndexType} {a b : Value}

/-- An index of a log has a time stamp, and it is not `nan`. -/
theorem Orders.stamp (h : a.Orders t) :
    a.stamp host = .ok (a.stampD host) ∧ a.stampD host ≠ .nan := by
  cases a with
  | text s => exact h.elim
  | num x => exact ⟨rfl, h.2⟩
  | dt d =>
    have hstamp : (Value.dt d).stamp host = .ok d.utcTimestamp := by
      rw [Value.stamp, Datetime.timestamp?, if_pos h.2]
      rfl
    have hval : (Value.dt d).stampD host = d.utcTimestamp := by rw [Value.stampD, hstamp]
    rw [hstamp, hval]
    exact ⟨rfl, Float64.ofUnits_ne_nan _ _⟩

/-- Time stamps ascend with the indices, though not strictly. -/
theorem Orders.stampD_mono (ha : a.Orders t) (hb : b.Orders t) (h : a.rank ≤ b.rank) :
    (a.stampD host).rank ≤ (b.stampD host).rank := by
  cases a with
  | text s => exact ha.elim
  | num x => cases b with
    | text s => exact hb.elim
    | num y => exact h
    | dt e => exact absurd (ha.1.symm.trans hb.1) (by simp)
  | dt d => cases b with
    | text s => exact hb.elim
    | num y => exact absurd (ha.1.symm.trans hb.1) (by simp)
    | dt e =>
      have hd : (Value.dt d).stampD host = d.utcTimestamp := by
        simp [Value.stampD, Value.stamp, Datetime.timestamp?, ha.2]
      have he : (Value.dt e).stampD host = e.utcTimestamp := by
        simp [Value.stampD, Value.stamp, Datetime.timestamp?, hb.2]
      rw [hd, he]
      exact Datetime.utcTimestamp_mono (by simpa [Value.rank] using h)

end Value

/-- **The table's order is the order of the indices.** -/
theorem rank_le_of_orderKey {t : IndexType} {nullsFirst : Bool} {r r' : CurveSampleRow}
    {v v' : Value} (hcols : (r.indexFloat, r.indexDt) = indexColumns t v)
    (hcols' : (r'.indexFloat, r'.indexDt) = indexColumns t v') (hv : v.Orders t) (hv' : v'.Orders t)
    (hle : r.orderKey nullsFirst ≤ r'.orderKey nullsFirst) : v.rank ≤ v'.rank := by
  unfold CurveSampleRow.orderKey at hle
  unfold indexColumns at hcols hcols'
  cases v with
  | text x => exact hv.elim
  | num x => cases v' with
    | text y => exact hv'.elim
    | dt e => exact absurd (hv.1.symm.trans hv'.1) (by simp)
    | num y =>
      simp only [hv.1, asFloat, Prod.mk.injEq, Bool.false_eq_true, if_false] at hcols hcols'
      have hcases : x.rank < y.rank ∨ x.rank = y.rank := by
        simpa [hcols, hcols', sqlColumn, Prod.Lex.toLex_le_toLex, Prod.Lex.toLex_lt_toLex] using hle
      exact hcases.elim le_of_lt le_of_eq
  | dt d => cases v' with
    | text y => exact hv'.elim
    | num y => exact absurd (hv.1.symm.trans hv'.1) (by simp)
    | dt e =>
      simp only [hv.1, asDatetime, Prod.mk.injEq, if_true] at hcols hcols'
      have hmicros : d.micros ≤ e.micros := by
        simpa [hcols, hcols', sqlColumn, Prod.Lex.toLex_le_toLex] using hle
      exact Int.ofNat_le.mpr hmicros

section Series

variable {host : Host} {store : RingBufferStore} {table ordered : List CurveSampleRow}
  {wellUid mnem : Str} {mnemonics : List Str} {S : List CurveSample} {t : IndexType}
  {nullsFirst : Bool} {limit : ℕ}

/-- **The ordered selection has the series as its rows of the mnemonic.**  The rows of the other
mnemonics stand between them, and take up places within the limit. -/
theorem Series.ordered_eq (h : Series t store table wellUid mnem S) (hmem : mnem ∈ mnemonics)
    (hsorted : Sorted nullsFirst wellUid mnemonics table ordered) :
    (ordered.filter fun r => decide (r.mnemonic = mnem)).map rowToSample = S := by
  have hrows : (ordered.filter fun r => decide (r.mnemonic = mnem)).Perm (table.filter fun r =>
      decide (r.wellUid = wellUid) && decide (r.mnemonic = mnem)) := by
    refine (hsorted.perm.filter _).trans (List.Perm.of_eq ?_)
    rw [List.filter_filter]
    refine List.filter_congr fun r _ => ?_
    by_cases hr : r.mnemonic = mnem
    · subst hr
      simp [CurveSampleRow.selected, hmem]
    · simp [hr]
  have hperm : ((ordered.filter fun r => decide (r.mnemonic = mnem)).map rowToSample).Perm S :=
    (hrows.map rowToSample).trans h.persisted
  have hascending : ((ordered.filter fun r => decide (r.mnemonic = mnem)).map
      rowToSample).Pairwise fun a b => a.index.rank ≤ b.index.rank := by
    have hread : ∀ r ∈ ordered.filter fun r => decide (r.mnemonic = mnem),
        (r.indexFloat, r.indexDt) = indexColumns t (rowToSample r).index ∧
          (rowToSample r).index.Orders t := by
      intro r hr
      have hS := h.orders _ (hperm.subset (List.mem_map_of_mem hr))
      obtain ⟨htable, hcurve⟩ := List.mem_filter.mp (hrows.subset hr)
      simp only [Bool.and_eq_true, decide_eq_true_eq] at hcurve
      exact ⟨h.columns r htable hcurve.1 hcurve.2, hS⟩
    rw [List.pairwise_map]
    refine (hsorted.ascending.sublist List.filter_sublist).imp_of_mem fun {r r'} hr hr' hle => ?_
    exact rank_le_of_orderKey (hread r hr).1 (hread r' hr').1 (hread r hr).2 (hread r' hr').2 hle
  refine hperm.eq_of_pairwise (fun a b ha hb hab hba => ?_) hascending
    (h.ascending.imp fun hlt => hlt.le)
  exact h.ascending.eq_of_key (hperm.subset ha) hb (le_antisymm hab hba)

/-- What the limit leaves out of the series are the mnemonic's rows beyond it. -/
theorem Series.split (limit : ℕ) (h : Series t store table wellUid mnem S) (hmem : mnem ∈ mnemonics)
    (hsorted : Sorted nullsFirst wellUid mnemonics table ordered) :
    ((ordered.take limit).filter fun r => decide (r.mnemonic = mnem)).map rowToSample ++
      ((ordered.drop limit).filter fun r => decide (r.mnemonic = mnem)).map rowToSample = S := by
  rw [← List.map_append, ← List.filter_append, List.take_append_drop]
  exact h.ordered_eq hmem hsorted

end Series

/-! ## 3. What an export gathers

`_gather_curves` sorts what it was given by time stamp, keeps the first sample of each, and then
the last `limit` of these. -/

/-- On samples with a time stamp, one is kept for each rank of the stamps. -/
theorem firstPerStamp_map {host : Host} {samples : List CurveSample}
    (h : ∀ s ∈ samples, s.index.stampD host ≠ .nan) :
    firstPerStamp (samples.map fun s => (s.index.stampD host, s)) =
      (firstPer (CurveSample.stampRank host) samples).map fun s => (s.index.stampD host, s) := by
  induction samples using List.reverseRecOn with
  | nil => rfl
  | append_singleton samples x ih =>
    have hold : ∀ s ∈ samples, s.index.stampD host ≠ .nan :=
      fun s hs => h s (List.mem_append_left _ hs)
    have hx : x.index.stampD host ≠ .nan := h x (by simp)
    have hseen : (firstPer (CurveSample.stampRank host) samples).any
          (fun y => (y.index.stampD host).eq (x.index.stampD host)) =
        (firstPer (CurveSample.stampRank host) samples).any
          fun y => decide (y.stampRank host = x.stampRank host) := by
      have hrank : ∀ y ∈ firstPer (CurveSample.stampRank host) samples,
          (y.index.stampD host).eq (x.index.stampD host) = true ↔
            y.stampRank host = x.stampRank host := by
        intro y hy
        have hy' := hold y (firstPer_subset _ hy)
        exact eq_iff.trans ⟨fun heq => congrArg Float64.rank heq.1,
          fun hrank => ⟨Float64.rank_injOn hy' hx hrank, hy'⟩⟩
      rw [Bool.eq_iff_iff, List.any_eq_true, List.any_eq_true]
      simp only [decide_eq_true_eq]
      exact ⟨fun ⟨y, hy, heq⟩ => ⟨y, hy, (hrank y hy).mp heq⟩,
        fun ⟨y, hy, heq⟩ => ⟨y, hy, (hrank y hy).mpr heq⟩⟩
    rw [List.map_append, List.map_singleton, firstPerStamp_append, ih hold,
      firstPer_append_singleton, List.any_map]
    change (if (firstPer (CurveSample.stampRank host) samples).any
      (fun y => (y.index.stampD host).eq (x.index.stampD host)) = true then _ else _) = _
    rw [hseen]
    split
    · rfl
    · rw [List.map_append, List.map_singleton]

/-- **What is gathered for one mnemonic** are the newest samples of what was read for it. -/
theorem gatherCurve_eq {host : Host} {limit : ℕ} (hlimit : 1 ≤ limit) {samples : List CurveSample}
    (h : ∀ s ∈ samples, ∃ t, s.index.Orders t) :
    gatherCurve host limit samples = .ok (newest (CurveSample.stampRank host) limit samples) := by
  have hstamp : ∀ s ∈ samples, s.index.stamp host = .ok (s.index.stampD host) ∧
      s.index.stampD host ≠ .nan := fun s hs => (h s hs).elim fun _ ht => ht.stamp
  have hsort : (((firstPer (CurveSample.stampRank host) samples).map
      fun s : CurveSample => (s.index.stampD host, s)).insertionSort
        fun a b => a.1.rank ≤ b.1.rank).map Prod.snd =
      (firstPer (CurveSample.stampRank host) samples).insertionSort
        fun a b => a.stampRank host ≤ b.stampRank host := by
    have hmap := List.map_insertionSort (r := fun a b => a.stampRank host ≤ b.stampRank host)
      (s := fun a b : Float64 × CurveSample => a.1.rank ≤ b.1.rank)
      (fun s : CurveSample => (s.index.stampD host, s))
      (firstPer (CurveSample.stampRank host) samples) fun _ _ _ _ => Iff.rfl
    rw [← hmap, List.map_map]
    exact List.map_id' _
  rw [gatherCurve_run limit fun s hs => (hstamp s hs).1,
    firstPerStamp_map fun s hs => (hstamp s hs).2, hsort, RingBufferStore.lastItems,
    if_neg (by omega)]
  rfl

/-- Look-up in what is gathered, one entry for each key. -/
theorem get?_map_key {f : Str → List CurveSample} (keys : List Str) (mnem : Str) :
    Dict.get? (keys.map fun m => (m, f m)) mnem = if mnem ∈ keys then some (f mnem) else none := by
  induction keys with
  | nil => rfl
  | cons m keys ih =>
    by_cases hm : m = mnem
    · subst hm
      simp [Dict.get?]
    · simp [Dict.get?, hm, ih, Ne.symm hm]

/-- What is gathered is gathered for each mnemonic by itself. -/
theorem gatherCurves_eq (host : Host) {limit : ℕ} (hlimit : 1 ≤ limit)
    {warm history : Dict Str (List CurveSample)}
    (h : ∀ mnem, ∀ s ∈ (warm.get? mnem).getD [] ++ (history.get? mnem).getD [],
      ∃ t, s.index.Orders t) (mnem : Str) :
    ∃ out, gatherCurves host limit warm history = .ok out ∧ (out.get? mnem).getD [] =
      newest (CurveSample.stampRank host) limit
        ((warm.get? mnem).getD [] ++ (history.get? mnem).getD []) := by
  have hrun : gatherCurves host limit warm history =
      .ok ((warm.map Prod.fst ++ history.map Prod.fst).dedup.map fun m =>
        (m, newest (CurveSample.stampRank host) limit
          ((warm.get? m).getD [] ++ (history.get? m).getD []))) :=
    mapM_eq_ok fun m _ => by rw [gatherCurve_eq hlimit (h m)]; rfl
  refine ⟨_, hrun, ?_⟩
  rw [get?_map_key]
  split
  · rfl
  · rename_i hkey
    have hnone : ∀ d : Dict Str (List CurveSample), mnem ∉ d.map Prod.fst → d.get? mnem = none := by
      intro d hd
      cases hget : d.get? mnem with
      | none => rfl
      | some v => exact absurd (List.mem_map_of_mem (Dict.get?_mem (fun _ _ => eq_of_beq) hget)) hd
    simp only [List.mem_dedup, List.mem_append, not_or] at hkey
    rw [hnone warm hkey.1, hnone history hkey.2]
    simp [newest, firstPer, List.rtake]

section Series

variable {store : RingBufferStore} {table ordered : List CurveSampleRow} {wellUid mnem : Str}
  {mnemonics : List Str} {S : List CurveSample} {t : IndexType} {nullsFirst : Bool} {limit : ℕ}

/-- What an export reads of a curve: the end of the warm buffer, and the mnemonic's rows within the
limit. -/
theorem gatherWell_eq (host : Host) (hmem : mnem ∈ mnemonics) (hlimit : 1 ≤ limit)
    (hreads : ReadsIndices store wellUid mnemonics table)
    (hsorted : Sorted nullsFirst wellUid mnemonics table ordered) :
    ∃ out, gatherWell host store wellUid mnemonics limit (.ok (ordered.take limit)) = .ok out ∧
      (out.get? mnem).getD [] = newest (CurveSample.stampRank host) limit
        ((store.buffer (wellUid, mnem)).rtake limit ++
          ((ordered.take limit).filter fun r => decide (r.mnemonic = mnem)).map rowToSample) := by
  have hwarm : ∀ m, (Dict.get? (store.getRecent wellUid mnemonics none (some limit)) m).getD [] =
      if m ∈ mnemonics then (store.buffer (wellUid, m)).rtake limit else [] := by
    intro m
    rw [RingBufferStore.get?_getRecent store wellUid m (List.ne_nil_of_mem hmem)]
    have hitems : ∀ buf, RingBufferStore.recentItems none (some limit) buf = buf.rtake limit :=
      fun buf => if_neg (by omega)
    by_cases hm : m ∈ mnemonics
    · by_cases hbuf : store.buffer (wellUid, m) = []
      · simp [hm, hbuf, List.rtake]
      · simp [hm, hbuf, hitems]
    · simp [hm]
  have hread : ∀ m, ∀ s ∈ (Dict.get? (store.getRecent wellUid mnemonics none (some limit)) m).getD [] ++
      ((historySamples (.ok (ordered.take limit))).get? m).getD [], ∃ t, s.index.Orders t := by
    intro m s hs
    rw [hwarm, historySamples_get?] at hs
    rcases List.mem_append.mp hs with hs | hs
    · split at hs
      · rename_i hm
        exact hreads.warm m hm s (rtake_subset hs)
      · simp at hs
    · obtain ⟨r, hr, rfl⟩ := List.mem_map.mp hs
      have hsel := hsorted.perm.subset (List.take_subset _ _ (List.mem_filter.mp hr).1)
      obtain ⟨htable, hselected⟩ := List.mem_filter.mp hsel
      exact hreads.table r htable hselected
  obtain ⟨out, hrun, hout⟩ := gatherCurves_eq host hlimit hread mnem
  refine ⟨out, hrun, ?_⟩
  rw [hout, hwarm, if_pos hmem, historySamples_get?]

/-- **An export has the newest samples of a series exactly if the warm buffer alone has them, or
holds every sample that the limit of the query leaves out**, and the time stamps of the newest
samples tell them apart, in the second case also from the older ones.

The general part is `Backfill`: the last samples of what is merged from an end and a beginning of a
series.  What is left to the code is that the two parts are an end and a beginning.

Time stamps are floats of seconds, and two instants that are microseconds apart may share one.  Of
these the export keeps the first only, so the condition cannot do without it, though depths never
meet it. -/
theorem newest_samples_iff (host : Host) (hmem : mnem ∈ mnemonics) (hlimit : 1 ≤ limit)
    (hseries : Series t store table wellUid mnem S)
    (hreads : ReadsIndices store wellUid mnemonics table)
    (hsorted : Sorted nullsFirst wellUid mnemonics table ordered) :
    (∃ out, gatherWell host store wellUid mnemonics limit (.ok (ordered.take limit)) = .ok out ∧
        (out.get? mnem).getD [] = lastN limit S) ↔
      (limit ≤ (store.buffer (wellUid, mnem)).length ∧
        Ordered (CurveSample.stampRank host) (lastN limit S)) ∨
      ((∀ r ∈ ordered.drop limit, r.mnemonic = mnem →
          rowToSample r ∈ store.buffer (wellUid, mnem)) ∧
        ∀ d ∈ lastN limit S, ∀ y ∈ S, y.index.rank < d.index.rank →
          y.stampRank host < d.stampRank host) := by
  obtain ⟨out, hrun, hout⟩ := gatherWell_eq host hmem hlimit hreads hsorted
  have hsplit := hseries.split limit hmem hsorted
  have hprefix : ((ordered.take limit).filter fun r => decide (r.mnemonic = mnem)).map rowToSample
      <+: S := ⟨_, hsplit⟩
  have hmono : ∀ a ∈ S, ∀ b ∈ S, a.index.rank ≤ b.index.rank →
      a.stampRank host ≤ b.stampRank host := fun a ha b hb =>
    (hseries.orders a ha).stampD_mono (hseries.orders b hb)
  have hends := newest_ends_iff (n := limit) hseries.ascending hmono hseries.warm hprefix
  have hgathered : (∃ out, gatherWell host store wellUid mnemonics limit
        (.ok (ordered.take limit)) = .ok out ∧ (out.get? mnem).getD [] = lastN limit S) ↔
      (out.get? mnem).getD [] = S.rtake limit := by
    constructor
    · rintro ⟨out', hrun', heq⟩
      obtain rfl := Except.ok.inj (hrun.symm.trans hrun')
      exact heq
    · exact fun heq => ⟨out, hrun, heq⟩
  rw [hgathered, hout, hends]
  refine or_congr Iff.rfl (and_congr_left fun _ => ?_)
  -- the two ends meet if the buffer has the rows beyond the limit
  have hnodup := hseries.ascending.nodup
  rw [← hsplit, List.nodup_append] at hnodup
  constructor
  · intro hmeet r hr hrm
    have hbeyond : rowToSample r ∈
        ((ordered.drop limit).filter fun r => decide (r.mnemonic = mnem)).map rowToSample :=
      List.mem_map_of_mem (List.mem_filter.mpr ⟨hr, by simpa using hrm⟩)
    have hS : rowToSample r ∈ S := hsplit ▸ List.mem_append_right _ hbeyond
    exact (hmeet _ hS).resolve_left fun hin => hnodup.2.2 _ hin _ hbeyond rfl
  · intro hbeyond x hx
    rw [← hsplit] at hx
    rcases List.mem_append.mp hx with hx | hx
    · exact Or.inl hx
    · obtain ⟨r, hr, rfl⟩ := List.mem_map.mp hx
      obtain ⟨hr, hrm⟩ := List.mem_filter.mp hr
      exact Or.inr (hbeyond r hr (by simpa using hrm))

end Series

/-! ## 4. A series with a hole

The smallest hole: five depths, of which the warm store has the last. -/

def depthSample (depth : ℤ) : CurveSample where
  mnemonic := "GR".toList
  index := .num (.ofRatio depth 1)
  value := some (.ofRatio 1 1)
  text := none
  uom := none

def depthRow (depth : ℤ) : CurveSampleRow where
  serverId := 1
  wellUid := "W".toList
  wellboreUid := "B".toList
  logUid := "L".toList
  mnemonic := "GR".toList
  indexFloat := some (.ofRatio depth 1)
  indexDt := none
  value := some (.ofRatio 1 1)
  text := none
  uom := none

/-- Five depths. -/
def fiveDepths : List CurveSample := [1, 2, 3, 4, 5].map depthSample

def fiveRows : List CurveSampleRow := [1, 2, 3, 4, 5].map depthRow

/-- A warm store that has only the last of them, as after a restart. -/
def lastDepthWarm : RingBufferStore := (RingBufferStore.init 10).append "W".toList [depthSample 5]

def utcHost : Host := .utc

theorem series_fiveDepths :
    Series .measuredDepth lastDepthWarm fiveRows "W".toList "GR".toList fiveDepths where
  ascending := by
    unfold Ordered
    decide +kernel
  orders := by decide +kernel
  persisted := List.Perm.of_eq rfl
  columns := by decide +kernel
  warm := ⟨[1, 2, 3, 4].map depthSample, rfl⟩

theorem readsIndices_fiveDepths :
    ReadsIndices lastDepthWarm "W".toList ["GR".toList] fiveRows where
  warm := by
    intro mnem hmem s hs
    obtain rfl := List.mem_singleton.mp hmem
    obtain rfl : s = depthSample 5 := List.mem_singleton.mp hs
    exact ⟨.measuredDepth, by decide +kernel⟩
  table r hr _ := by
    obtain ⟨depth, -, rfl⟩ := List.mem_map.mp hr
    exact ⟨.measuredDepth, rfl, Float64.ofUnits_ne_nan _ _⟩

theorem sorted_fiveRows : Sorted true "W".toList ["GR".toList] fiveRows fiveRows where
  perm := List.Perm.of_eq rfl
  ascending := by decide +kernel

/-- **An export has a hole**: asked for the newest two of five depths, with only the last one left in
the warm store, it gives the second and the fifth. -/
theorem export_has_hole :
    Series .measuredDepth lastDepthWarm fiveRows "W".toList "GR".toList fiveDepths ∧
      ReadsIndices lastDepthWarm "W".toList ["GR".toList] fiveRows ∧
      Sorted true "W".toList ["GR".toList] fiveRows fiveRows ∧
      (∃ out, gatherWell utcHost lastDepthWarm "W".toList ["GR".toList] 2 (.ok (fiveRows.take 2)) =
        .ok out ∧ (out.get? "GR".toList).getD [] = [depthSample 2, depthSample 5]) ∧
      lastN 2 fiveDepths = [depthSample 4, depthSample 5] ∧
      ¬∃ out, gatherWell utcHost lastDepthWarm "W".toList ["GR".toList] 2 (.ok (fiveRows.take 2)) =
        .ok out ∧ (out.get? "GR".toList).getD [] = lastN 2 fiveDepths := by
  have hrun : gatherWell utcHost lastDepthWarm "W".toList ["GR".toList] 2 (.ok (fiveRows.take 2)) =
      .ok [("GR".toList, [depthSample 2, depthSample 5])] := by decide +kernel
  refine ⟨series_fiveDepths, readsIndices_fiveDepths, sorted_fiveRows, ⟨_, hrun, rfl⟩, rfl, ?_⟩
  rintro ⟨out, hout, heq⟩
  obtain rfl := Except.ok.inj (hrun.symm.trans hout)
  exact absurd heq (by decide +kernel)

/-- Of the same series the newest four are exported: the limit of the query leaves out only the
sample that the warm store has. -/
theorem newest_samples_iff_fiveDepths :
    ∃ out, gatherWell utcHost lastDepthWarm "W".toList ["GR".toList] 4
        (.ok (fiveRows.take 4)) = .ok out ∧
      (out.get? "GR".toList).getD [] = lastN 4 fiveDepths :=
  (newest_samples_iff utcHost (by decide) (by decide) series_fiveDepths readsIndices_fiveDepths
    sorted_fiveRows).mpr (Or.inr ⟨by decide +kernel, by decide +kernel⟩)

end WitsmlViewer
