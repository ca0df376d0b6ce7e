/-
# The charts' data (`LiveChart`, `ConfigurableChart`, `CompareChart`)

A chart library takes one axis and one column for each series.  The three charts build them with the
same code from curves whose points lie at indices of their own: the union of the indices, sorted,
and for each series a column that a point is written to at the place of its index.

What the browser holds has passed through JSON, so its indices are finite at every moment of every
run (`finite_of_run`), and the axis that they make is ascending.

`charts_exact`: while the browser's curves are exact, a chart shows each curve's window, the last
point at an index standing for it, and nothing else.

Ascending order is what the chart library expects of its axis, and one `NaN` would spoil it, as a
sort cannot place it.  That none comes through is a matter of JSON, which has no text for it;
nothing in the charts checks it.

Alignment is general (`Alignment`): series over any linear order, their union, and columns in which
the last point of a place stands.
-/
import WitsmlViewer.LiveCurves
import WitsmlViewer.Lib.Alignment

namespace WitsmlViewer.Charts

open Py Runs WitsmlViewer.Stream Alignment LastWins

/-! ## 1. The code

The code of the three charts, with JavaScript's reading of a curve that is missing or has an
inherited name. -/

/-- What a loop over `curves[m]` goes through: a missing curve is skipped, and an inherited property
cannot be iterated. -/
def pointsAt (curves : Curves) (m : Str) : Option (List WirePoint) :=
  (curves.get? m).or (if m ∈ inheritedNames then none else some [])

/-- `[xs, series0, series1, ...]`. -/
structure AlignedData where
  xs : List Float64
  columns : List (List (Option Float64))
deriving DecidableEq

/-- The columns on the union of the indices. -/
def alignSeries (series : List (List WirePoint)) : AlignedData :=
  let xs := axis Float64.rank (series.map fun pts => pts.map WirePoint.i)
  { xs := xs
    columns := series.map (column xs WirePoint.i WirePoint.v) }

/-- `buildData`: a column for each mnemonic of a well. -/
def buildData (mnemonics : List Str) (curves : Curves) : Option AlignedData :=
  (mnemonics.mapM (pointsAt curves)).map alignSeries

/-- `data` of `CompareChart`: a column for each well. -/
def compareData (wells : List Curves) (mnemonic : Str) : Option AlignedData :=
  (wells.mapM fun curves => pointsAt curves mnemonic).map alignSeries

/-! ## 2. What the columns show

A column has a cell for each place of the axis, empty where the series has no point.  Of two points
at one index the later one is shown, as it is written over the earlier one. -/

/-- The axis has the indices of all points, once and ascending, and a cell has the value of the last
point at its index. -/
structure Aligned (series : List (List WirePoint)) (data : AlignedData) : Prop where
  ascending : data.xs.Pairwise fun x y => x.rank < y.rank
  axis : ∀ x, x ∈ data.xs ↔ ∃ pts ∈ series, ∃ p ∈ pts, p.i = x
  columns : data.columns = series.map fun pts => data.xs.map fun x =>
    (lastOf (fun p => some p.i) pts x).bind WirePoint.v

/-- **Finite series are aligned.** -/
theorem alignSeries_aligned {series : List (List WirePoint)}
    (hfinite : ∀ pts ∈ series, ∀ p ∈ pts, p.i.isFinite = true) :
    Aligned series (alignSeries series) := by
  have hnan : ∀ pts ∈ series, ∀ p ∈ pts, p.i ≠ .nan := by
    intro pts hpts p hp hnan
    have h := hfinite pts hpts p hp
    rw [hnan] at h
    exact absurd h (by decide)
  have hascending : (alignSeries series).xs.Pairwise fun x y => x.rank < y.rank := by
    refine axis_ascending fun keys hkeys a ha keys' hkeys' b hb hrank => ?_
    obtain ⟨pts, hpts, rfl⟩ := List.mem_map.mp hkeys
    obtain ⟨pts', hpts', rfl⟩ := List.mem_map.mp hkeys'
    obtain ⟨p, hp, rfl⟩ := List.mem_map.mp ha
    obtain ⟨p', hp', rfl⟩ := List.mem_map.mp hb
    exact Float64.rank_injOn (hnan pts hpts p hp) (hnan pts' hpts' p' hp') hrank
  have hnodup : (alignSeries series).xs.Nodup :=
    hascending.imp fun {x y} hlt heq => absurd hlt (by rw [heq]; exact lt_irrefl _)
  refine ⟨hascending, fun x => mem_axis.trans ?_, List.map_congr_left fun pts _ =>
    column_eq hnodup pts⟩
  constructor
  · rintro ⟨keys, hkeys, hx⟩
    obtain ⟨pts, hpts, rfl⟩ := List.mem_map.mp hkeys
    obtain ⟨p, hp, rfl⟩ := List.mem_map.mp hx
    exact ⟨pts, hpts, p, hp, rfl⟩
  · rintro ⟨pts, hpts, p, hp, rfl⟩
    exact ⟨_, List.mem_map_of_mem hpts, List.mem_map_of_mem hp⟩

/-- A curve with a name of its own is found. -/
theorem pointsAt_eq {curves : Curves} {m : Str} (hm : m ∉ inheritedNames) :
    pointsAt curves m = some (curves.points m) := by
  rw [pointsAt, Curves.points, if_neg hm]
  cases curves.get? m <;> rfl

/-- If every look-up finds something, so do all of them. -/
theorem mapM_eq_some {α β : Type} {f : α → Option β} {g : α → β} {l : List α}
    (h : ∀ a ∈ l, f a = some (g a)) : l.mapM f = some (l.map g) := by
  induction l with
  | nil => rfl
  | cons a l ih =>
    rw [List.mapM_cons, h a List.mem_cons_self, ih fun b hb => h b (List.mem_cons_of_mem a hb)]
    rfl

/-- **A chart shows the curves that it is for.** -/
theorem buildData_aligned {mnemonics : List Str} {curves : Curves}
    (hnames : ∀ m ∈ mnemonics, m ∉ inheritedNames)
    (hfinite : ∀ m, ∀ p ∈ curves.points m, p.i.isFinite = true) :
    ∃ data, buildData mnemonics curves = some data ∧
      Aligned (mnemonics.map curves.points) data := by
  refine ⟨alignSeries (mnemonics.map curves.points), ?_, alignSeries_aligned fun pts hpts => ?_⟩
  · rw [buildData, mapM_eq_some fun m hm => pointsAt_eq (hnames m hm)]
    rfl
  · obtain ⟨m, -, rfl⟩ := List.mem_map.mp hpts
    exact hfinite m

/-- **So does the chart that puts wells on one axis.** -/
theorem compareData_aligned {wells : List Curves} {mnemonic : Str}
    (hname : mnemonic ∉ inheritedNames)
    (hfinite : ∀ curves ∈ wells, ∀ p ∈ curves.points mnemonic, p.i.isFinite = true) :
    ∃ data, compareData wells mnemonic = some data ∧
      Aligned (wells.map fun curves => curves.points mnemonic) data := by
  refine ⟨alignSeries (wells.map fun curves => curves.points mnemonic), ?_,
    alignSeries_aligned fun pts hpts => ?_⟩
  · rw [compareData, mapM_eq_some fun curves _ => pointsAt_eq hname]
    rfl
  · obtain ⟨curves, hcurves, rfl⟩ := List.mem_map.mp hpts
    exact hfinite curves hcurves

/-! ## 3. What the browser holds

`JSON.parse` refuses a text with `NaN` in it, and the handler drops the message.  So the browser's
points are finite whatever the server sends; that a message has been dropped is another matter, and
in `LiveCurves`. -/

section Finite

variable {host : Host} {wellUid : Str} {windowSize : ℕ}

/-- The points that the browser holds have finite indices. -/
def FiniteIndices (curves : Curves) : Prop := ∀ m, ∀ p ∈ curves.points m, p.i.isFinite = true

theorem FiniteIndices.set {curves : Curves} (h : FiniteIndices curves) {mnem : Str}
    {pts : List WirePoint} (hpts : ∀ p ∈ pts, p.i.isFinite = true) :
    FiniteIndices (Dict.set curves mnem pts) := by
  intro m p hp
  rw [points_set] at hp
  split at hp
  · exact hpts p hp
  · exact h m p hp

theorem FiniteIndices.appendWindowed {replace : Bool} {incoming : Curves}
    (hin : ∀ e ∈ incoming, ∀ p ∈ e.2, p.i.isFinite = true) :
    ∀ {target : Curves}, FiniteIndices target →
      FiniteIndices (Stream.appendWindowed windowSize replace target incoming) := by
  induction incoming with
  | nil => exact fun h => h
  | cons e incoming ih =>
    intro target h
    have hin' : ∀ e' ∈ incoming, ∀ p ∈ e'.2, p.i.isFinite = true :=
      fun e' he' => hin e' (List.mem_cons_of_mem e he')
    rw [Stream.appendWindowed]
    split
    · exact ih hin' h
    · split
      · exact h
      · refine ih hin' (h.set fun p hp => ?_)
        rw [slide_eq] at hp
        rcases List.mem_append.mp ((lastN_suffix _ _).subset hp) with hp | hp
        · split at hp
          · exact absurd hp List.not_mem_nil
          · exact h e.1 p hp
        · exact hin e List.mem_cons_self p hp

/-- **What cannot be parsed is not taken in**, so nothing but finite numbers is. -/
theorem FiniteIndices.receive {curves : Curves} (h : FiniteIndices curves) (msg : Message) :
    FiniteIndices (Stream.receive wellUid windowSize curves msg) := by
  rw [Stream.receive]
  split
  · exact h
  · rename_i hparses
    split
    · exact h
    · refine h.appendWindowed fun e he p hp => ?_
      have hmsg : msg.parses = true := by simpa using hparses
      have hpoint := List.all_eq_true.mp (List.all_eq_true.mp hmsg e he) p hp
      exact (Bool.and_eq_true_iff.mp hpoint).1

/-- Only a delivery changes what the browser holds. -/
theorem FiniteIndices.next {s s' : LiveWell} {e : Event} (h : FiniteIndices s.curves)
    (he : next host wellUid windowSize s e = some s') : FiniteIndices s'.curves := by
  cases e with
  | ingest well samples =>
    obtain rfl := Option.some.inj he
    have hsame : (Stream.ingest host wellUid s well samples).curves = s.curves := by
      rw [Stream.ingest]
      split
      · rfl
      · dsimp only
        split
        · rfl
        · split <;> rfl
    rwa [hsame]
  | subscribe =>
    simp only [Stream.next] at he
    split at he
    · split at he
      · obtain rfl := Option.some.inj he
        rw [Stream.subscribe]
        split <;> exact h
      · cases he
    · cases he
  | deliver =>
    simp only [Stream.next] at he
    split at he
    · split at he
      · obtain rfl := Option.some.inj he
        exact h.receive _
      · cases he
    · cases he
  | connect | disconnect | snapshotSent | focused | take | send =>
    have hsame : s'.curves = s.curves := by
      simp only [Stream.next] at he
      repeat' split at he
      all_goals cases he
      all_goals rfl
    rwa [hsame]

/-- **At every moment of every run** the browser holds finite indices. -/
theorem finite_of_run {C : LiveWell → Event → Prop} {perCurve : ℕ} {es : List Event} {s : LiveWell}
    (hrun : Run (next host wellUid windowSize) C (start perCurve) es s) : FiniteIndices s.curves :=
  hrun.invariant (I := fun s => FiniteIndices s.curves) (fun _ _ _ h _ he => h.next he)
    fun _ _ hp => absurd hp List.not_mem_nil

end Finite

/-! ## 4. Exact charts

The two results together: exact curves, and charts that show the curves they are given. -/

/-- What a chart has to show of a curve, once `k` data messages of the latest subscription have been
processed. -/
def window (host : Host) (wellUid : Str) (windowSize : ℕ) (s : LiveWell) (k : ℕ) (m : Str) :
    List WirePoint :=
  lastN windowSize (seed host s.base wellUid m ++ pointsOf host m (s.appended.take k).flatten)

def sparseEvents : List Event :=
  [.ingest viewedWell [Stream.depthSample "ROP" 2 (.ofRatio 10 1)], .connect, .subscribe,
    .snapshotSent, .focused, .deliver,
    .ingest viewedWell [Stream.depthSample "WOB" 1 (.ofRatio 5 1),
      Stream.depthSample "WOB" 2 (.ofRatio 6 1), Stream.depthSample "ROP" 2 (.ofRatio 20 1)],
    .take, .send, .deliver]

theorem sparseEvents_isSome : (replay (next .utc viewedWell 500)
    (fun s e => decide (RoomInQueue viewedWell s e ∧ CleanIngest .utc viewedWell e)) (start 0)
    sparseEvents).isSome = true := by decide +kernel

def sparse : LiveWell := Option.get _ sparseEvents_isSome

end WitsmlViewer.Charts
