/-
# The strip track (`frontend/src/components/tracks/StripTrack.tsx`)

The points of a mnemonic, in the order of their indices, are drawn as coloured segments: a point
reaches to the next one, and prolongs the last segment if it has its key.  The last point has no
next one; it reaches as far as the points lie apart on average.

`strip_segments_iff`: the segments partition the points exactly if every value is a number and the
last point either prolongs a segment or has that reach, which a double may swallow.

The first half of the condition is about `null`, whose `toFixed` is looked up and not found, so
that the whole strip is not drawn.  The second is about the last point, and mostly about a point
that is alone: the average of no gaps is zero, so its segment has no length.

The fallback to one is there for this and does not take effect.  `max + gap || max + 1` groups as
`(max + gap) || (max + 1)`, so it is used where the sum is zero and not where the gap is.

Numbers are doubles throughout, since where they round is part of the result.  How strips cover
points is in `Strips`, for any order.
-/
import WitsmlViewer.Lib.Strips
import WitsmlViewer.ReadPaths
import WitsmlViewer.Py.Numbers

namespace WitsmlViewer
namespace StripTrack

open Py Strips

/-! ## 1. Numbers in JavaScript

As much of JavaScript as the component uses: its arithmetic, its truth values, and its two ways of
writing a number. -/

/-- What a script throws. -/
inductive JsError
  | typeError
deriving DecidableEq

/-- `x - y`. -/
def minus (x y : Float64) : Float64 := x.add y.neg

/-- What counts as false: zero, and what is not a number. -/
def falsy (x : Float64) : Bool := x.isZero || x == .nan

/-- `x || y`. -/
def orElse (x y : Float64) : Float64 := if falsy x then y else x

/-- The layout of a digit string: plain from `1e-6` up to `1e21`, else scientific. -/
def jsLayout (ds : Str) (point : ℤ) : Str :=
  if ds.length ≤ point ∧ point ≤ 21 then ds ++ List.replicate (point.toNat - ds.length) '0'
  else if 0 < point ∧ point ≤ 21 then ds.take point.toNat ++ '.' :: ds.drop point.toNat
  else if -6 < point ∧ point ≤ 0 then '0' :: '.' :: (List.replicate (-point).toNat '0' ++ ds)
  else
    let e := point - 1
    ds.take 1 ++ (if ds.length = 1 then [] else '.' :: ds.drop 1) ++
      'e' :: (if e < 0 then '-' else '+') :: Nat.toDigits 10 e.natAbs

/-- The value of `d` with `n` significant digits. -/
def jsShortened (d : Double) (n : ℕ) : Str :=
  let (ds, point) := significantDigits d.units.natAbs n
  (if d.units < 0 then ['-'] else []) ++ jsLayout ds point

/-- `String(x)`: the fewest digits that read back as `x`. -/
def numberString : Float64 → Str
  | .fin d => if d.units = 0 then ['0'] else firstExact d ((List.range' 1 17).map (jsShortened d))
  | .inf neg => (if neg then ['-'] else []) ++ "Infinity".toList
  | .nan => "NaN".toList

/-- `x.toFixed(1)`: the nearest tenth, the one away from zero if there are two. -/
def toFixed1 : Float64 → Str
  | .fin d =>
    if 10 ^ 21 * unitsPerOne ≤ d.units.natAbs then numberString (.fin d) else
      let tenths := (20 * d.units.natAbs + unitsPerOne) / (2 * unitsPerOne)
      (if d.units < 0 then ['-'] else []) ++ Nat.toDigits 10 (tenths / 10) ++
        '.' :: Nat.toDigits 10 (tenths % 10)
  | x => numberString x

/-! ## 2. Segments

A key is a text, and two numbers have one key if they are written alike.  Colours are given out in
the order in which keys are met. -/

structure Segment where
  key : Str
  start : Float64
  stop : Float64
  color : Str
deriving DecidableEq

/-- `STATE_COLORS`. -/
def stateColors : List Str :=
  ["#8d6e63".toList, "#fdd835".toList, "#90a4ae".toList, "#4db6ac".toList, "#7e57c2".toList,
   "#ef5350".toList, "#66bb6a".toList, "#42a5f5".toList, "#ff8a65".toList, "#bdbdbd".toList]

/-- The key of a number: itself if it is whole, else its nearest tenth. -/
def stateKey (x : Float64) : Str := if x.isInteger then numberString x else toFixed1 x

/-- `keyFor`: `null` is no integer, and has no `toFixed`. -/
def keyFor (v : Option Float64) : Except JsError Str :=
  v.elim (.error .typeError) fun x => .ok (stateKey x)

/-- What the loop builds: `segments` and `colorByKey`. -/
structure Drawing where
  segments : List Segment
  colorByKey : Dict Str Str
deriving DecidableEq

/-- `colorFor`: the colour of a key, and the colours with it. -/
def colorFor (colorByKey : Dict Str Str) (key : Str) : Str × Dict Str Str :=
  let next := stateColors.getD (colorByKey.length % stateColors.length) []
  (colorByKey.get? key).elim (next, colorByKey.set key next) fun c => (c, colorByKey)

/-- The end of the loop's body: `last.end = end`, or another segment. -/
def Drawing.record (d : Drawing) (key : Str) (start stop : Float64) : Drawing :=
  let another : Drawing :=
    ⟨d.segments ++ [⟨key, start, stop, (colorFor d.colorByKey key).1⟩],
      (colorFor d.colorByKey key).2⟩
  d.segments.getLast?.elim another fun last =>
    if last.key = key then { d with segments := d.segments.dropLast ++ [{ last with stop }] }
    else another

/-- The loop over the sorted points; `past` is where the last one ends. -/
def drawLoop (past : Float64 → Float64) : List WirePoint → Drawing → Except JsError Drawing
  | [], d => .ok d
  | p :: rest, d => (keyFor p.v).bind fun key =>
    drawLoop past rest (d.record key p.i ((rest.head?.map WirePoint.i).getD (past p.i)))

/-- `(max - min) / Math.max(n, 1)`. -/
def meanGap (min max : Float64) (n : ℕ) : Float64 := (minus max min).div (.ofRatio (Nat.max n 1) 1)

/-- The end of the last point. -/
def pastLast (min max : Float64) (n : ℕ) (i : Float64) : Float64 :=
  orElse (i.add (meanGap min max n)) (i.add (.ofRatio 1 1))

/-- The comparison of the sort: `a.i - b.i` is not positive. -/
def NotAfter (a b : WirePoint) : Prop := (minus a.i b.i).rank ≤ 0

instance : DecidableRel NotAfter := fun a b => Int.decLe (minus a.i b.i).rank 0

structure Built where
  segments : List Segment
  min : Float64
  max : Float64
deriving DecidableEq

/-- `buildSegments`. -/
def buildSegments (points : List WirePoint) : Except JsError Built :=
  match points.insertionSort NotAfter with
  | [] => .ok ⟨[], .ofRatio 0 1, .ofRatio 1 1⟩
  | first :: rest =>
    let min := first.i
    let max := ((first :: rest).getLast (List.cons_ne_nil _ _)).i
    (drawLoop (pastLast min max (first :: rest).length) (first :: rest) ⟨[], []⟩).map fun d =>
      ⟨d.segments, min, max⟩

/-! ## 3. What a strip is for

The specification: a partition of the range from the least index on into segments of positive
length, such that neighbours differ and every point lies in a segment of its key. -/

/-- Segments that partition points: in order and edge to edge, from the least index on, none of
them empty, no two neighbours alike, and every number in a segment that carries its key. -/
structure PartitionsPoints (points : List WirePoint) (segments : List Segment) : Prop where
  ordered : segments.Pairwise fun s s' => s.start.lt s'.start = true
  contiguous : segments.IsChain fun s s' => s.stop = s'.start
  first : ∃ p ∈ points, (∀ q ∈ points, p.i.rank ≤ q.i.rank) ∧
    segments.head?.map Segment.start = some p.i
  wide : ∀ s ∈ segments, s.start.lt s.stop = true
  distinct : segments.IsChain fun s s' => s.key ≠ s'.key
  carried : ∀ p ∈ points, ∀ x, p.v = some x → ∃ s ∈ segments, s.key = stateKey x ∧
    p.i.lt s.start = false ∧
      (p.i.lt s.stop = true ∨ segments.getLast? = some s ∧ s.stop.lt p.i = false)

/-- The two points of greatest index have one key. -/
def TopTwoAlike (points : List WirePoint) : Prop :=
  ∃ q ∈ points, ∃ p ∈ points, q.i.lt p.i = true ∧
    (∀ r ∈ points, r = p ∨ r.i.rank ≤ q.i.rank) ∧ q.v.map stateKey = p.v.map stateKey

/-- Adding `d` to `x` is lost in rounding. -/
def Swallows (x d : Float64) : Prop := x.add d = x

/-- `hi` does not swallow the mean gap; where the two add up to zero, it does not swallow one. -/
def LastCounts (lo hi : Float64) (n : ℕ) : Prop :=
  if falsy (hi.add (meanGap lo hi n)) = true then ¬Swallows hi (.ofRatio 1 1)
  else ¬Swallows hi (meanGap lo hi n)

/-- It is so for the least and the greatest index. -/
def GapCounts (points : List WirePoint) : Prop :=
  ∀ lo ∈ points, ∀ hi ∈ points,
    (∀ r ∈ points, lo.i.rank ≤ r.i.rank ∧ r.i.rank ≤ hi.i.rank) →
      LastCounts lo.i hi.i points.length

/-! ## 4. The loop draws strips

The loop is the general one of `Strips` as long as there are numbers; the first `null` stops it. -/

def Segment.strip (s : Segment) : Strip Float64 Str := ⟨s.key, s.start, s.stop⟩

/-- A point with a number, as it is drawn. -/
def sample (p : WirePoint) : Float64 × Str := (p.i, (p.v.map stateKey).getD [])

theorem strip_record (d : Drawing) (key : Str) (start stop : Float64) :
    (d.record key start stop).segments.map Segment.strip =
      extend (d.segments.map Segment.strip) ⟨key, start, stop⟩ := by
  rcases List.eq_nil_or_concat d.segments with hnil | ⟨init, last, hconcat⟩
  · simp [Drawing.record, hnil, Segment.strip]
  · rw [List.concat_eq_append] at hconcat
    have hmap : d.segments.map Segment.strip = init.map Segment.strip ++ [last.strip] := by
      rw [hconcat, List.map_append, List.map_singleton]
    rw [hmap]
    by_cases hkey : last.key = key
    · rw [extend_same (by exact hkey)]
      simp [Drawing.record, hconcat, hkey, Segment.strip]
    · rw [extend_other (by exact hkey)]
      simp [Drawing.record, hconcat, hkey, Segment.strip]

theorem head?_sample (points : List WirePoint) :
    (points.map sample).head?.map Prod.fst = points.head?.map WirePoint.i := by
  cases points with
  | nil => rfl
  | cons _ _ => rfl

/-- **Numbers are drawn as strips.** -/
theorem drawLoop_numbers (past : Float64 → Float64) (points : List WirePoint) :
    ∀ d : Drawing, (∀ p ∈ points, p.v ≠ none) → ∃ d', drawLoop past points d = .ok d' ∧
      d'.segments.map Segment.strip =
        lay past (points.map sample) (d.segments.map Segment.strip) := by
  induction points with
  | nil => exact fun d _ => ⟨d, rfl, rfl⟩
  | cons p rest ih =>
    intro d hnumbers
    obtain ⟨x, hx⟩ := Option.ne_none_iff_exists'.mp (hnumbers p (by simp))
    let stop := (rest.head?.map WirePoint.i).getD (past p.i)
    obtain ⟨d', hloop, hstrips⟩ := ih (d.record (stateKey x) p.i stop)
      fun q hq => hnumbers q (List.mem_cons_of_mem p hq)
    refine ⟨d', ?_, ?_⟩
    · rw [drawLoop, hx]
      exact hloop
    · have hsample : sample p = (p.i, stateKey x) := by simp [sample, hx]
      rw [hstrips, strip_record, List.map_cons, lay, head?_sample, hsample]

/-- A null stops the loop. -/
theorem drawLoop_null (past : Float64 → Float64) (points : List WirePoint) :
    ∀ d : Drawing, (∃ p ∈ points, p.v = none) → drawLoop past points d = .error .typeError := by
  induction points with
  | nil => exact fun d ⟨p, hp, _⟩ => absurd hp List.not_mem_nil
  | cons p rest ih =>
    intro d hnull
    cases hv : p.v with
    | none =>
      rw [drawLoop, hv]
      rfl
    | some x =>
      rw [drawLoop, hv]
      refine ih _ ?_
      obtain ⟨q, hq, hnone⟩ := hnull
      rcases List.mem_cons.mp hq with rfl | hq
      · rw [hv] at hnone
        exact absurd hnone (Option.some_ne_none x)
      · exact ⟨q, hq, hnone⟩

/-! ## 5. Positions

Doubles are compared through their ranks, which are integers; `nan` has none and is put below all
of them.  So the general results, which are about a linear order, apply. -/

/-- Where a number stands; `nan` stands nowhere. -/
def position (x : Float64) : WithBot ℤ := if x = .nan then ⊥ else x.rank

theorem position_of_ne_nan {x : Float64} (h : x ≠ .nan) : position x = x.rank := if_neg h

theorem lt_of_position_lt {x y : Float64} (hx : x ≠ .nan) (h : position x < position y) :
    x.lt y = true := by
  have hy : y ≠ .nan := by
    rintro rfl
    exact not_lt_bot h
  rw [position_of_ne_nan hx, position_of_ne_nan hy, WithBot.coe_lt_coe] at h
  simp [Float64.lt, hx, hy, h]

theorem position_lt_of_lt {x y : Float64} (h : x.lt y = true) : position x < position y := by
  simp only [Float64.lt, Bool.and_eq_true, bne_iff_ne, decide_eq_true_eq] at h
  obtain ⟨⟨hx, hy⟩, hlt⟩ := h
  rw [position_of_ne_nan hx, position_of_ne_nan hy]
  exact WithBot.coe_lt_coe.mpr hlt

theorem not_lt_of_position_le {x y : Float64} (h : position y ≤ position x) : x.lt y = false := by
  rw [Bool.eq_false_iff]
  exact fun hlt => (position_lt_of_lt hlt).not_ge h

theorem ne_nan_of_isFinite {x : Float64} (h : x.isFinite = true) : x ≠ .nan := by
  rintro rfl
  exact absurd h (by decide)

/-! ## 6. The reach of the last point

Adding what is not negative does not go back, in rounded arithmetic either, but it may stay where
it is; that is what "swallows" means. -/

/-- The comparison of the sort compares indices. -/
theorem notAfter_iff {a b : WirePoint} (ha : a.i.isFinite = true) (hb : b.i.isFinite = true) :
    NotAfter a b ↔ a.i.rank ≤ b.i.rank := by
  obtain ⟨x, hx⟩ := Float64.exists_of_isFinite ha
  obtain ⟨y, hy⟩ := Float64.exists_of_isFinite hb
  have h := Float64.rank_ofUnits_nonpos_iff (x.units + -y.units)
  simp only [NotAfter, hx, hy, minus, Float64.neg, Float64.add, Float64.rank] at h ⊢
  omega

theorem rank_minus_nonneg {lo hi : Float64} (hlo : lo.isFinite = true) (hhi : hi.isFinite = true)
    (hle : lo.rank ≤ hi.rank) : 0 ≤ (minus hi lo).rank := by
  obtain ⟨x, rfl⟩ := Float64.exists_of_isFinite hlo
  obtain ⟨y, rfl⟩ := Float64.exists_of_isFinite hhi
  have hunits : x.units ≤ y.units := hle
  refine Float64.rank_ofUnits_nonneg ?_
  show 0 ≤ y.units + -x.units
  omega

theorem rank_div_nonneg {x y : Float64} (hx : 0 ≤ x.rank) (hy : 0 ≤ y.rank) :
    0 ≤ (x.div y).rank := by
  cases x with
  | fin d =>
    cases y with
    | fin d' =>
      have hunits : 0 ≤ d.units := hx
      have hsign : 0 ≤ d'.units.sign := Int.sign_nonneg_iff.mpr hy
      exact Float64.rank_ofUnits_nonneg (mul_nonneg (mul_nonneg hunits (Int.natCast_nonneg _)) hsign)
    | inf _ => exact Float64.rank_ofUnits_nonneg (by simp)
    | nan => exact le_rfl
  | inf neg =>
    obtain rfl := Float64.eq_false_of_rank_inf_nonneg hx
    cases y with
    | fin d' =>
      have hunits : 0 ≤ d'.units := hy
      have hdiv : (Float64.inf false).div (.fin d') = .inf false := by
        simp [Float64.div, hunits]
      rw [hdiv]
      exact hx
    | inf _ => exact le_rfl
    | nan => exact le_rfl
  | nan => exact le_rfl

theorem rank_meanGap_nonneg {lo hi : Float64} (hlo : lo.isFinite = true) (hhi : hi.isFinite = true)
    (hle : lo.rank ≤ hi.rank) (n : ℕ) : 0 ≤ (meanGap lo hi n).rank :=
  rank_div_nonneg (rank_minus_nonneg hlo hhi hle)
    (Float64.rank_ofUnits_nonneg (mul_nonneg (Int.natCast_nonneg _) (Int.natCast_nonneg _)))

/-- A sum with what is not below zero is not before its first summand. -/
theorem position_le_add {x g : Float64} (hx : x.isFinite = true) (hg : 0 ≤ g.rank)
    (hsum : x.add g ≠ .nan) : position x ≤ position (x.add g) := by
  rw [position_of_ne_nan (ne_nan_of_isFinite hx), position_of_ne_nan hsum, WithBot.coe_le_coe]
  obtain ⟨d, rfl⟩ := Float64.exists_of_isFinite hx
  cases g with
  | fin e =>
    have hunits : 0 ≤ e.units := hg
    have hmono : (Float64.ofUnits d.units 1).rank ≤ (Float64.ofUnits (d.units + e.units) 1).rank :=
      Float64.ofUnits_mono 1 (by omega)
    rwa [Float64.ofUnits_self] at hmono
  | inf neg =>
    obtain rfl := Float64.eq_false_of_rank_inf_nonneg hg
    exact (Float64.rank_fin_lt d).le
  | nan => exact absurd rfl hsum

/-- A sum is past its first summand unless that swallows the second. -/
theorem position_lt_add_iff {x g : Float64} (hx : x.isFinite = true) (hg : 0 ≤ g.rank)
    (hsum : x.add g ≠ .nan) : position x < position (x.add g) ↔ ¬Swallows x g := by
  have hle := position_le_add hx hg hsum
  have hxnan := ne_nan_of_isFinite hx
  constructor
  · intro hlt heq
    rw [Swallows] at heq
    rw [heq] at hlt
    exact lt_irrefl _ hlt
  · intro hne
    refine lt_of_le_of_ne hle fun heq => hne ?_
    rw [position_of_ne_nan hxnan, position_of_ne_nan hsum, WithBot.coe_inj] at heq
    exact (Float64.rank_injOn hxnan hsum heq).symm

theorem add_one_ne_nan {x : Float64} (hx : x.isFinite = true) : x.add (.ofRatio 1 1) ≠ .nan := by
  obtain ⟨d, rfl⟩ := Float64.exists_of_isFinite hx
  have hone := Float64.ofUnits_ne_nan (1 * unitsPerOne) 1
  unfold Float64.ofRatio
  cases hy : Float64.ofUnits (1 * unitsPerOne) 1 with
  | fin e => exact Float64.ofUnits_ne_nan _ _
  | inf _ => simp [Float64.add]
  | nan => exact absurd hy hone

theorem ne_nan_of_not_falsy {x : Float64} (h : falsy x = false) : x ≠ .nan := by
  rintro rfl
  exact absurd h (by decide)

/-- **How far the last point reaches.** -/
theorem pastLast_spec {lo hi : Float64} (hlo : lo.isFinite = true) (hhi : hi.isFinite = true)
    (hle : lo.rank ≤ hi.rank) (n : ℕ) :
    position hi ≤ position (pastLast lo hi n hi) ∧
      (position hi < position (pastLast lo hi n hi) ↔ LastCounts lo hi n) := by
  have hgap := rank_meanGap_nonneg hlo hhi hle n
  have hone : 0 ≤ (Float64.ofRatio 1 1).rank :=
    Float64.rank_ofUnits_nonneg (mul_nonneg zero_le_one (Int.natCast_nonneg _))
  unfold pastLast orElse LastCounts
  split
  · have hsum := add_one_ne_nan hhi
    exact ⟨position_le_add hhi hone hsum, position_lt_add_iff hhi hone hsum⟩
  · rename_i htruthy
    have hsum := ne_nan_of_not_falsy (Bool.eq_false_iff.mpr htruthy)
    exact ⟨position_le_add hhi hgap hsum, position_lt_add_iff hhi hgap hsum⟩

/-! ## 7. Points in the order of their indices

After the sort the points ascend strictly, as their indices differ.  The least and the greatest
index are those of the first and the last point, and the key of the last segment is that of the
last point but one. -/

/-- Points as the wire form gives them: indices that are finite and differ. -/
structure WellFormed (points : List WirePoint) : Prop where
  finite : ∀ p ∈ points, p.i.isFinite = true
  distinct : (points.map WirePoint.i).Nodup

/-- **The sort.** -/
theorem WellFormed.sorted {points : List WirePoint} (h : WellFormed points) :
    (points.insertionSort NotAfter).Pairwise fun p q => p.i.rank < q.i.rank := by
  let byRank : WirePoint → WirePoint → Prop := fun a b => a.i.rank ≤ b.i.rank
  have hsame : points.insertionSort NotAfter = points.insertionSort byRank :=
    insertionSort_congr fun a ha b hb => notAfter_iff (h.finite a ha) (h.finite b hb)
  have htotal : Std.Total byRank := ⟨fun a b => le_total a.i.rank b.i.rank⟩
  have htrans : IsTrans WirePoint byRank := ⟨fun _ _ _ hab hbc => Int.le_trans hab hbc⟩
  have hranks := List.pairwise_insertionSort byRank points
  have hdistinct : (points.insertionSort byRank).Pairwise fun p q => p.i ≠ q.i := by
    have hperm := (List.perm_insertionSort byRank points).map WirePoint.i
    exact List.pairwise_map.mp (hperm.nodup_iff.mpr h.distinct)
  rw [hsame]
  refine (hranks.and hdistinct).imp_of_mem fun {p q} hp hq hpq => ?_
  have hpnan := ne_nan_of_isFinite (h.finite p (List.mem_insertionSort byRank |>.mp hp))
  have hqnan := ne_nan_of_isFinite (h.finite q (List.mem_insertionSort byRank |>.mp hq))
  exact lt_of_le_of_ne hpq.1 fun heq => hpq.2 (Float64.rank_injOn hpnan hqnan heq)

theorem buildSegments_eq {points sorted : List WirePoint}
    (h : points.insertionSort NotAfter = sorted) (hne : sorted ≠ []) :
    buildSegments points =
      (drawLoop (pastLast (sorted.head hne).i (sorted.getLast hne).i sorted.length) sorted
        ⟨[], []⟩).map fun d => ⟨d.segments, (sorted.head hne).i, (sorted.getLast hne).i⟩ := by
  unfold buildSegments
  cases sorted with
  | nil => exact absurd rfl hne
  | cons first rest =>
    rw [h]
    rfl

section Sorted

variable {points sorted init : List WirePoint} {p : WirePoint}

theorem WellFormed.position_lt_iff (h : WellFormed points) {q r : WirePoint} (hq : q ∈ points)
    (hr : r ∈ points) : position q.i < position r.i ↔ q.i.rank < r.i.rank := by
  rw [position_of_ne_nan (ne_nan_of_isFinite (h.finite q hq)),
    position_of_ne_nan (ne_nan_of_isFinite (h.finite r hr)), WithBot.coe_lt_coe]

theorem WellFormed.lt_iff (h : WellFormed points) {q r : WirePoint} (hq : q ∈ points)
    (hr : r ∈ points) : q.i.lt r.i = true ↔ q.i.rank < r.i.rank := by
  rw [← h.position_lt_iff hq hr]
  exact ⟨position_lt_of_lt, lt_of_position_lt (ne_nan_of_isFinite (h.finite q hq))⟩

/-- The sorted points stand in order as they are drawn. -/
theorem WellFormed.ascending (h : WellFormed points) (hperm : sorted.Perm points)
    (hsorted : sorted.Pairwise fun p q => p.i.rank < q.i.rank) :
    Ascending position (sorted.map sample) := by
  refine List.pairwise_map.mpr (hsorted.imp_of_mem fun {q r} hq hr hlt => ?_)
  exact (h.position_lt_iff (hperm.mem_iff.mp hq) (hperm.mem_iff.mp hr)).mpr hlt

theorem rank_head_le (hsorted : sorted.Pairwise fun p q => p.i.rank < q.i.rank)
    (hne : sorted ≠ []) : ∀ r ∈ sorted, (sorted.head hne).i.rank ≤ r.i.rank := by
  cases sorted with
  | nil => exact absurd rfl hne
  | cons first rest =>
    intro r hr
    rcases List.mem_cons.mp hr with rfl | hr
    · exact le_rfl
    · exact (List.rel_of_pairwise_cons hsorted hr).le

theorem rank_le_last (hsorted : (init ++ [p]).Pairwise fun p q => p.i.rank < q.i.rank) :
    ∀ r ∈ init ++ [p], r.i.rank ≤ p.i.rank := by
  intro r hr
  rcases List.mem_append.mp hr with hr | hr
  · exact ((List.pairwise_append.mp hsorted).2.2 r hr p (by simp)).le
  · obtain rfl := List.mem_singleton.mp hr
    exact le_rfl

/-- The last two points in order are the two of greatest index. -/
theorem WellFormed.topTwoAlike_iff (h : WellFormed points) (hnumbers : ∀ q ∈ points, q.v ≠ none)
    (hperm : (init ++ [p]).Perm points)
    (hsorted : (init ++ [p]).Pairwise fun p q => p.i.rank < q.i.rank) :
    TopTwoAlike points ↔ (init.map sample).getLast?.map Prod.snd = some (sample p).2 := by
  have hp : p ∈ points := hperm.mem_iff.mp (by simp)
  have hlast : ∀ q ∈ init, q.i.rank < p.i.rank := fun q hq =>
    (List.pairwise_append.mp hsorted).2.2 q hq p (by simp)
  have hkeys : ∀ {q r : WirePoint}, q ∈ points → r ∈ points →
      (q.v.map stateKey = r.v.map stateKey ↔ (sample q).2 = (sample r).2) := by
    intro q r hq hr
    obtain ⟨x, hx⟩ := Option.ne_none_iff_exists'.mp (hnumbers q hq)
    obtain ⟨y, hy⟩ := Option.ne_none_iff_exists'.mp (hnumbers r hr)
    simp [sample, hx, hy]
  constructor
  · rintro ⟨q, hq, p', hp', hlt, hsecond, halike⟩
    have hrank := (h.lt_iff hq hp').mp hlt
    -- the greatest is the last one, so the other stands before it
    obtain rfl : p = p' := by
      rcases List.mem_append.mp (hperm.mem_iff.mpr hp') with hin | hin
      · have hbelow := hlast p' hin
        rcases hsecond p hp with heq | hle
        · exact heq
        · omega
      · exact (List.mem_singleton.mp hin).symm
    have hqinit : q ∈ init := by
      rcases List.mem_append.mp (hperm.mem_iff.mpr hq) with hin | hin
      · exact hin
      · obtain rfl := List.mem_singleton.mp hin
        exact absurd hrank (lt_irrefl _)
    rcases List.eq_nil_or_concat init with rfl | ⟨init', q', rfl⟩
    · exact absurd hqinit List.not_mem_nil
    · rw [List.concat_eq_append] at *
      have hq' : q' ∈ points := hperm.mem_iff.mp (by simp)
      obtain rfl : q = q' := by
        rcases List.mem_append.mp hqinit with hin | hin
        · have hbelow := (List.pairwise_append.mp (List.pairwise_append.mp hsorted).1).2.2 q hin q'
            (by simp)
          rcases hsecond q' hq' with heq | hle
          · exact absurd (hlast q' (by simp)) (by rw [heq]; exact lt_irrefl _)
          · omega
        · exact List.mem_singleton.mp hin
      simpa using (hkeys hq hp').mp halike
  · intro halike
    rcases List.eq_nil_or_concat init with rfl | ⟨init', q, rfl⟩
    · simp at halike
    · rw [List.concat_eq_append] at *
      have hq : q ∈ points := hperm.mem_iff.mp (by simp)
      refine ⟨q, hq, p, hp, (h.lt_iff hq hp).mpr (hlast q (by simp)), fun r hr => ?_,
        (hkeys hq hp).mpr (by simpa using halike)⟩
      rcases List.mem_append.mp (hperm.mem_iff.mpr hr) with hin | hin
      · exact .inr (rank_le_last (List.pairwise_append.mp hsorted).1 r hin)
      · exact .inl (List.mem_singleton.mp hin)

/-- The first and the last point have the least and the greatest index. -/
theorem WellFormed.gapCounts_iff (h : WellFormed points) (hperm : (init ++ [p]).Perm points)
    (hsorted : (init ++ [p]).Pairwise fun p q => p.i.rank < q.i.rank) (hne : init ++ [p] ≠ []) :
    GapCounts points ↔ LastCounts ((init ++ [p]).head hne).i p.i (init ++ [p]).length := by
  have hfirst := rank_head_le hsorted hne
  have hlast := rank_le_last hsorted
  have hhead : (init ++ [p]).head hne ∈ points := hperm.mem_iff.mp (List.head_mem hne)
  have hp : p ∈ points := hperm.mem_iff.mp (by simp)
  rw [hperm.length_eq]
  constructor
  · intro hgap
    refine hgap _ hhead p hp fun r hr => ?_
    have hr' := hperm.mem_iff.mpr hr
    exact ⟨hfirst r hr', hlast r hr'⟩
  · intro hcounts lo hlo hi hhi hbounds
    have hsame : ∀ q ∈ points, ∀ r ∈ points, q.i.rank ≤ r.i.rank → r.i.rank ≤ q.i.rank →
        q.i = r.i := fun q hq r hr hle hge =>
      Float64.rank_injOn (ne_nan_of_isFinite (h.finite q hq)) (ne_nan_of_isFinite (h.finite r hr))
        (le_antisymm hle hge)
    rw [hsame lo hlo _ hhead (hbounds _ hhead).1 (hfirst lo (hperm.mem_iff.mpr hlo)),
      hsame hi hhi p hp (hlast hi (hperm.mem_iff.mpr hhi)) (hbounds p hp).2]
    exact hcounts

/-- **A cover is a partition.** -/
theorem WellFormed.partitions (h : WellFormed points) (hperm : sorted.Perm points)
    (hne : sorted ≠ [])
    (hsorted : sorted.Pairwise fun p q => p.i.rank < q.i.rank) {segments : List Segment}
    (hcover : Covers position (sorted.map sample) (segments.map Segment.strip)) :
    PartitionsPoints points segments := by
  have hstart : ∀ s ∈ segments, s.start ≠ .nan := by
    intro s hs
    obtain ⟨q, hq, heq⟩ := hcover.opened s.strip (List.mem_map_of_mem hs)
    obtain ⟨r, hr, rfl⟩ := List.mem_map.mp hq
    rw [show s.start = r.i from heq]
    exact ne_nan_of_isFinite (h.finite r (hperm.mem_iff.mp hr))
  have hjoined := (List.isChain_map Segment.strip).mp hcover.joined
  have hdistinct := (List.isChain_map Segment.strip).mp hcover.distinct
  refine ⟨?_, hjoined, ?_, fun s hs => ?_, hdistinct, fun q hq x hx => ?_⟩
  · refine (List.pairwise_map.mp hcover.ordered).imp_of_mem fun {s s'} hs _ hlt => ?_
    exact lt_of_position_lt (hstart s hs) hlt
  · refine ⟨sorted.head hne, hperm.mem_iff.mp (List.head_mem hne),
      fun q hq => rank_head_le hsorted hne q (hperm.mem_iff.mpr hq), ?_⟩
    have hfirst := hcover.first
    rw [List.head?_map, Option.map_map, head?_sample, List.head?_eq_some_head hne] at hfirst
    exact hfirst
  · exact lt_of_position_lt (hstart s hs) (hcover.wide s.strip (List.mem_map_of_mem hs))
  · obtain ⟨s', hs', hkey, hleft, hright⟩ :=
      hcover.carried (sample q) (List.mem_map_of_mem (hperm.mem_iff.mpr hq))
    obtain ⟨s, hs, rfl⟩ := List.mem_map.mp hs'
    have hnumber : (sample q).2 = stateKey x := by simp [sample, hx]
    have hq' := ne_nan_of_isFinite (h.finite q hq)
    rcases hright with hlt | ⟨hend, hle⟩
    · exact ⟨s, hs, hkey.trans hnumber, not_lt_of_position_le hleft,
        .inl (lt_of_position_lt hq' hlt)⟩
    · -- the last segment, which is drawn as this strip
      rw [List.getLast?_map, Option.map_eq_some_iff] at hend
      obtain ⟨last, hlast, hstrip⟩ := hend
      rw [← hstrip] at hkey hleft hle
      exact ⟨last, List.mem_of_getLast? hlast, hkey.trans hnumber, not_lt_of_position_le hleft,
        .inr ⟨hlast, not_lt_of_position_le hle⟩⟩

end Sorted

/-- `0`. -/
def zeroDouble : Double := ⟨0, by decide, unitsOverflow_pos⟩

theorem ofUnits_zero (den : ℕ) : Float64.ofUnits 0 den = .fin zeroDouble := by
  refine Float64.rank_injOn (Float64.ofUnits_ne_nan _ _) (by simp) ?_
  rw [Float64.rank_ofUnits]
  simp [roundUnits, roundHalfEven, lostBits, Float64.rank, zeroDouble]

/-- The mean gap of a point alone is zero. -/
theorem meanGap_self (d : Double) (n : ℕ) : meanGap (.fin d) (.fin d) n = .fin zeroDouble := by
  have hminus : minus (.fin d) (.fin d) = .fin zeroDouble := by
    rw [← ofUnits_zero 1]
    simp [minus, Float64.neg, Float64.add]
  have hcount : Float64.ofRatio (Nat.max n 1) 1 ≠ .nan := Float64.ofUnits_ne_nan _ _
  rw [meanGap, hminus]
  cases hn : Float64.ofRatio (Nat.max n 1) 1 with
  | fin e => simp [Float64.div, Float64.divUnits, zeroDouble, ofUnits_zero]
  | inf _ => simp [Float64.div, Float64.ofRatio, ofUnits_zero]
  | nan => exact absurd hn hcount

theorem add_zero_double (d : Double) : (Float64.fin d).add (.fin zeroDouble) = .fin d := by
  rw [← Float64.ofUnits_self d]
  simp [Float64.add, zeroDouble, Float64.ofUnits_self]

/-- Zero does not swallow one. -/
theorem not_swallows_one {d : Double} (h : d.units = 0) : ¬Swallows (.fin d) (.ofRatio 1 1) := by
  intro heq
  have hone : ¬(Float64.ofRatio 1 1).rank ≤ 0 := by
    have hpos := unitsPerOne_pos
    rw [Float64.ofRatio, Float64.rank_ofUnits_nonpos_iff]
    omega
  have hsum : ((Float64.fin d).add (.ofRatio 1 1)).rank = (Float64.ofRatio 1 1).rank := by
    cases hy : Float64.ofRatio 1 1 with
    | fin e => rw [Float64.add, h, zero_add, Float64.ofUnits_self]
    | inf _ => rfl
    | nan => rfl
  rw [heq] at hsum
  have hzero : (Float64.fin d).rank = 0 := h
  omega

/-- **A point alone has a reach only at zero.** -/
theorem gapCounts_lone {p : WirePoint} (h : p.i.isFinite = true) :
    GapCounts [p] ↔ p.i.isZero = true := by
  have hlone : GapCounts [p] ↔ LastCounts p.i p.i 1 := by simp [GapCounts]
  obtain ⟨d, hi⟩ := Float64.exists_of_isFinite h
  rw [hlone, hi, LastCounts, meanGap_self, add_zero_double]
  by_cases hzero : d.units = 0
  · have hfalsy : falsy (.fin d) = true := by simp [falsy, Float64.isZero, hzero]
    rw [if_pos hfalsy]
    exact iff_of_true (not_swallows_one hzero) (by simp [Float64.isZero, hzero])
  · have htruthy : ¬falsy (.fin d) = true := by simp [falsy, Float64.isZero, hzero]
    rw [if_neg htruthy]
    exact iff_of_false (fun hne => hne (add_zero_double d)) (by simp [Float64.isZero, hzero])

/-! ## 8. When the segments partition the points

The two halves of the condition are independent: a `null` anywhere ends in an exception, and
without one only the last point is in question. -/

section Settled

variable {points init : List WirePoint} {p : WirePoint}

/-- With a number at every point, only the last one is in question. -/
theorem WellFormed.partitions_iff (h : WellFormed points) (hnumbers : ∀ q ∈ points, q.v ≠ none)
    (hconcat : points.insertionSort NotAfter = init ++ [p]) :
    (∃ built, buildSegments points = .ok built ∧ PartitionsPoints points built.segments) ↔
      TopTwoAlike points ∨ GapCounts points := by
  have hperm := List.perm_insertionSort NotAfter points
  have hsorted := h.sorted
  rw [hconcat] at hperm hsorted
  have hne : init ++ [p] ≠ [] := by simp
  have hp : p ∈ points := hperm.mem_iff.mp (by simp)
  have hhead : (init ++ [p]).head hne ∈ points := hperm.mem_iff.mp (List.head_mem hne)
  have hbuild := buildSegments_eq hconcat hne
  rw [List.getLast_append_singleton] at hbuild
  obtain ⟨past, hpast⟩ : ∃ past, past =
      pastLast ((init ++ [p]).head hne).i p.i (init ++ [p]).length := ⟨_, rfl⟩
  rw [← hpast] at hbuild
  obtain ⟨d, hloop, hstrips⟩ := drawLoop_numbers past (init ++ [p]) ⟨[], []⟩
    fun q hq => hnumbers q (hperm.mem_iff.mp hq)
  rw [hloop] at hbuild
  have hreach := pastLast_spec (h.finite _ hhead) (h.finite p hp)
    (rank_head_le hsorted hne p (by simp)) (init ++ [p]).length
  rw [← hpast] at hreach
  have hfits : Fits position (init.map sample) (sample p) (past p.i) ↔
      TopTwoAlike points ∨ GapCounts points := by
    rw [h.topTwoAlike_iff hnumbers hperm hsorted, h.gapCounts_iff hperm hsorted hne, ← hreach.2]
    exact or_comm
  have hasc := h.ascending hperm hsorted
  rw [List.map_append, List.map_singleton] at hasc hstrips
  rw [List.map_nil] at hstrips
  constructor
  · rintro ⟨built, hok, hpart⟩
    rw [hbuild] at hok
    obtain rfl := Except.ok.inj hok
    refine hfits.mp (fits_of_wide_lay hasc fun s hs => ?_)
    rw [← hstrips] at hs
    obtain ⟨segment, hsegment, rfl⟩ := List.mem_map.mp hs
    exact position_lt_of_lt (hpart.wide segment hsegment)
  · intro hcond
    have hcover := covers_lay hasc hreach.1 (hfits.mpr hcond)
    refine ⟨_, hbuild, h.partitions hperm hne hsorted ?_⟩
    rw [List.map_append, List.map_singleton, hstrips]
    exact hcover

/-- A null ends in an exception. -/
theorem buildSegments_null (hconcat : points.insertionSort NotAfter = init ++ [p])
    (hnull : ∃ q ∈ points, q.v = none) : buildSegments points = .error .typeError := by
  have hperm := List.perm_insertionSort NotAfter points
  rw [hconcat] at hperm
  obtain ⟨q, hq, hv⟩ := hnull
  rw [buildSegments_eq hconcat (by simp),
    drawLoop_null _ _ _ ⟨q, hperm.mem_iff.mpr hq, hv⟩]
  rfl

end Settled

/-- **The segments partition the points exactly if every value is a number and the last point
prolongs a segment or reaches past its own index.**

A last point that prolongs a segment may have no reach of its own, since the segment has a length
from the points before it.  The statement is about any number of points from one on, with finite
indices that differ. -/
theorem strip_segments_iff {points : List WirePoint} (hne : points ≠ []) (h : WellFormed points) :
    (∃ built, buildSegments points = .ok built ∧ PartitionsPoints points built.segments) ↔
      (∀ p ∈ points, p.v ≠ none) ∧ (TopTwoAlike points ∨ GapCounts points) := by
  obtain ⟨init, p, hconcat⟩ : ∃ init p, points.insertionSort NotAfter = init ++ [p] := by
    rcases List.eq_nil_or_concat (points.insertionSort NotAfter) with hnil | ⟨init, p, hconcat⟩
    · have hperm := List.perm_insertionSort NotAfter points
      rw [hnil] at hperm
      exact absurd hperm.symm.eq_nil hne
    · exact ⟨init, p, by rw [hconcat, List.concat_eq_append]⟩
  by_cases hnumbers : ∀ q ∈ points, q.v ≠ none
  · rw [h.partitions_iff hnumbers hconcat]
    exact (and_iff_right hnumbers).symm
  · refine iff_of_false ?_ fun hcond => hnumbers hcond.1
    rintro ⟨built, hok, -⟩
    have hnull : ∃ q ∈ points, q.v = none := by
      by_contra hno
      exact hnumbers fun q hq hv => hno ⟨q, hq, hv⟩
    rw [buildSegments_null hconcat hnull] at hok
    exact absurd hok (by simp)

instance (x d : Float64) : Decidable (Swallows x d) := inferInstanceAs (Decidable (x.add d = x))

instance (lo hi : Float64) (n : ℕ) : Decidable (LastCounts lo hi n) :=
  inferInstanceAs (Decidable (if falsy (hi.add (meanGap lo hi n)) = true then _ else _))

instance (points : List WirePoint) : Decidable (GapCounts points) :=
  inferInstanceAs (Decidable (∀ lo ∈ points, ∀ hi ∈ points, (∀ r ∈ points, _ ∧ _) → _))

/-- Three depths, out of order. -/
def threeDepths : List WirePoint :=
  [⟨.ofRatio 2 1, some (.ofRatio 7 1), none, none⟩, ⟨.ofRatio 0 1, some (.ofRatio 5 1), none, none⟩,
   ⟨.ofRatio 1 1, some (.ofRatio 5 1), none, none⟩]

theorem strip_three_depths : ∃ built, buildSegments threeDepths = .ok built ∧
    PartitionsPoints threeDepths built.segments :=
  (strip_segments_iff (by decide) ⟨by decide +kernel, by decide +kernel⟩).mpr
    ⟨by decide, .inr (by decide +kernel)⟩

/-- A single depth. -/
def oneDepth : List WirePoint := [⟨.ofRatio 5 1, some (.ofRatio 7 1), none, none⟩]

/-- A text sample beside a number. -/
def textBesideNumber : List WirePoint :=
  [⟨.ofRatio 0 1, some (.ofRatio 7 1), none, none⟩, ⟨.ofRatio 1 1, none, some "shale".toList, none⟩]

/-- A point alone at 5 has a segment from 5 to 5; a text sample has none, and no other point has. -/
theorem strip_single_empty :
    (¬∃ built, buildSegments oneDepth = .ok built ∧ PartitionsPoints oneDepth built.segments) ∧
      ¬∃ built, buildSegments textBesideNumber = .ok built ∧
        PartitionsPoints textBesideNumber built.segments := by
  constructor
  · have hbuilt : buildSegments oneDepth = .ok ⟨[⟨['7'], .ofRatio 5 1, .ofRatio 5 1,
        "#8d6e63".toList⟩], .ofRatio 5 1, .ofRatio 5 1⟩ := by decide +kernel
    rintro ⟨built, hok, hpart⟩
    rw [hbuilt] at hok
    obtain rfl := Except.ok.inj hok
    exact absurd (hpart.wide _ (List.mem_singleton_self _)) (by decide +kernel)
  · have hthrown : buildSegments textBesideNumber = .error .typeError := by decide +kernel
    rintro ⟨built, hok, -⟩
    rw [hthrown] at hok
    exact absurd hok (by simp)

end StripTrack
end WitsmlViewer
