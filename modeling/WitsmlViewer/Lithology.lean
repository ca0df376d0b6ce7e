/-
# The lithology track (`frontend/src/components/comparison/LithologyTrack.tsx`)

The components of an interval are laid over the width of the track, each as wide as its percentage
is of the total.  A component without a percentage is drawn with an equal share of a hundred, but
counts nothing in the total.

`lithology_fills_iff`: the bands fill the track exactly if every component has a percentage, or
none has and there are a hundred of them.

The two defaults do not fit together.  Where all percentages are missing the total falls back on
the number of components, and where some are missing it is the sum of those that are there; the
share that a missing one is drawn with is a hundred over the number of components in both cases.
So a single missing percentage makes the row too wide, and a row without any is off by the factor
of a hundred over their number.

Percentages need not add up to a hundred.  They are taken in proportion, and rational numbers are
enough for that.  The bands themselves are in `Bands`, for any list of widths.
-/
import WitsmlViewer.Lib.Bands
import WitsmlViewer.Py.Str

namespace WitsmlViewer
namespace LithologyTrack

open Py Bands

/-! ## 1. The segments

The code, up to the point where it becomes a picture.  Depths and colours are carried along; what
is laid over the width is decided by the components alone. -/

/-- `ComparisonLithology`: what a track reads of a component. -/
structure Lithology where
  type : Option Str
  lithPc : Option ℚ
  description : Option Str := none
  color : Option Str := none
deriving DecidableEq

/-- `ComparisonGeologyInterval`. -/
structure GeologyInterval where
  typeLithology : Option Str
  mdTop : Option ℚ
  mdBottom : Option ℚ
  lithologies : List Lithology
  description : Option Str := none

structure Segment (σ : Type) where
  yTop : ℚ
  yBottom : ℚ
  xStart : ℚ
  width : ℚ
  style : σ
  lith : Lithology
  mdTop : ℚ
  mdBottom : ℚ
  description : Option Str
deriving DecidableEq

/-- What a track is drawn with: its properties, the span of its depths, and the style of a
lithology. -/
structure Track (σ : Type) where
  depthMin : ℚ
  depthMax : ℚ
  height : ℚ
  width : ℚ
  lithStyle : Lithology → σ

variable {σ : Type}

/-- The span of depths, not less than a hair. -/
def Track.span (track : Track σ) : ℚ := max (track.depthMax - track.depthMin) (1 / 1000000000)

/-- The components of an interval; its own type stands for them if it has none. -/
def effectiveLiths (iv : GeologyInterval) : List Lithology :=
  if iv.lithologies.length > 0 then iv.lithologies
  else [{ type := iv.typeLithology, lithPc := some 100 }]

/-- `totalPc`: the sum of the percentages, or the number of components if the sum is zero. -/
def totalPc (liths : List Lithology) : ℚ :=
  let sum := liths.foldl (fun acc l => acc + l.lithPc.getD 0) 0
  if sum = 0 then liths.length else sum

/-- `pc`: the percentage of a component, or an equal share of a hundred. -/
def pc (liths : List Lithology) (l : Lithology) : ℚ := l.lithPc.getD (100 / liths.length)

/-- The segments that an interval adds to a track. -/
def intervalSegments (track : Track σ) (iv : GeologyInterval) : List (Segment σ) :=
  match iv.mdTop, iv.mdBottom with
  | some top, some bottom =>
    if bottom ≤ top then [] else
      let yTop := (top - track.depthMin) / track.span * track.height
      let yBottom := (bottom - track.depthMin) / track.span * track.height
      let liths := effectiveLiths iv
      let (out, _) := liths.foldl (fun (out, xCursor) l =>
        let w := pc liths l / totalPc liths * track.width
        (out ++ [{ yTop, yBottom, xStart := xCursor, width := w, style := track.lithStyle l,
                   lith := l, mdTop := top, mdBottom := bottom,
                   description := l.description.or iv.description }], xCursor + w)) ([], 0)
      out
  | _, _ => []

/-- `segments`. -/
def segments (track : Track σ) (intervals : List GeologyInterval) : List (Segment σ) :=
  intervals.foldl (fun out iv => out ++ intervalSegments track iv) []

/-! ## 2. What a track is for

To fill a track is to lay bands from its left edge to its right edge, each as wide as its
component's part of the total, none outside and none over another. -/

/-- The left edge and the width of a segment. -/
def Segment.band (s : Segment σ) : ℚ × ℚ := (s.xStart, s.width)

/-- The segments of some components fill a track: there is one for each, they are edge to edge and
within the track, and where percentages are given they are in the ratio of these. -/
structure FillsTrack (width : ℚ) (liths : List Lithology) (segs : List (Segment σ)) : Prop where
  liths : segs.map Segment.lith = liths
  nonneg : ∀ s ∈ segs, 0 ≤ s.width
  edges : EdgeToEdge 0 (segs.map Segment.band)
  apart : segs.Pairwise fun s s' => s.xStart + s.width ≤ s'.xStart
  total : (segs.map Segment.width).sum = width
  ratio : ∀ s ∈ segs, ∀ s' ∈ segs, ∀ p p', s.lith.lithPc = some p → s'.lith.lithPc = some p' →
    s.width * p' = s'.width * p

/-- Percentages that are not negative, and not all of them zero. -/
structure Percentages (liths : List Lithology) : Prop where
  nonneg : ∀ l ∈ liths, ∀ p, l.lithPc = some p → 0 ≤ p
  positive : ∀ l ∈ liths, l.lithPc ≠ none → ∃ l' ∈ liths, ∃ p, l'.lithPc = some p ∧ 0 < p

/-- Every component has a percentage, or none has and there are a hundred. -/
def EvenlyGiven (liths : List Lithology) : Prop :=
  (∀ l ∈ liths, l.lithPc ≠ none) ∨ (∀ l ∈ liths, l.lithPc = none) ∧ liths.length = 100

/-! ## 3. Edge to edge

The loop moves a cursor.  It places each band where the last one ended, so bands are apart whatever
the widths are; only whether they end at the right edge is in question. -/

/-- The segment of a component, with the cursor at `x`. -/
def segmentAt (track : Track σ) (iv : GeologyInterval) (top bottom x : ℚ) (l : Lithology) :
    Segment σ where
  yTop := (top - track.depthMin) / track.span * track.height
  yBottom := (bottom - track.depthMin) / track.span * track.height
  xStart := x
  width := pc (effectiveLiths iv) l / totalPc (effectiveLiths iv) * track.width
  style := track.lithStyle l
  lith := l
  mdTop := top
  mdBottom := bottom
  description := l.description.or iv.description

/-- Segments one after another. -/
def placed (segmentAt : ℚ → Lithology → Segment σ) (x : ℚ) : List Lithology → List (Segment σ)
  | [] => []
  | l :: ls => segmentAt x l :: placed segmentAt (x + (segmentAt x l).width) ls

theorem foldl_placed (segmentAt : ℚ → Lithology → Segment σ) (ls : List Lithology)
    (out : List (Segment σ)) (x : ℚ) :
    (ls.foldl (fun (acc : List (Segment σ) × ℚ) l =>
      (acc.1 ++ [segmentAt acc.2 l], acc.2 + (segmentAt acc.2 l).width)) (out, x)).1 =
        out ++ placed segmentAt x ls := by
  induction ls generalizing out x with
  | nil => exact (List.append_nil out).symm
  | cons l ls ih => rw [List.foldl_cons, ih, List.append_assoc]; rfl

/-- The segments of an interval that is not empty. -/
theorem intervalSegments_eq (track : Track σ) {iv : GeologyInterval} {top bottom : ℚ}
    (htop : iv.mdTop = some top) (hbottom : iv.mdBottom = some bottom) (h : top < bottom) :
    intervalSegments track iv = placed (segmentAt track iv top bottom) 0 (effectiveLiths iv) := by
  rw [intervalSegments, htop, hbottom]
  dsimp only
  rw [if_neg (not_le.mpr h)]
  exact foldl_placed (segmentAt track iv top bottom) (effectiveLiths iv) [] 0

section Placed

variable {segmentAt : ℚ → Lithology → Segment σ} {w : Lithology → ℚ}

theorem placed_liths (hlith : ∀ x l, (segmentAt x l).lith = l) (x : ℚ) (ls : List Lithology) :
    (placed segmentAt x ls).map Segment.lith = ls := by
  induction ls generalizing x with
  | nil => rfl
  | cons l ls ih => rw [placed, List.map_cons, ih, hlith]

theorem placed_bands (hband : ∀ x l, (segmentAt x l).band = (x, w l)) (x : ℚ)
    (ls : List Lithology) :
    (placed segmentAt x ls).map Segment.band = layout x (ls.map w) := by
  induction ls generalizing x with
  | nil => rfl
  | cons l ls ih =>
    have hwidth : (segmentAt x l).width = w l := congrArg Prod.snd (hband x l)
    rw [placed, List.map_cons, ih, hband, hwidth]
    rfl

theorem placed_widths (hband : ∀ x l, (segmentAt x l).band = (x, w l)) (x : ℚ)
    (ls : List Lithology) : (placed segmentAt x ls).map Segment.width = ls.map w := by
  rw [← layout_widths x (ls.map w), ← placed_bands hband, List.map_map]
  rfl

theorem placed_width (hlith : ∀ x l, (segmentAt x l).lith = l)
    (hband : ∀ x l, (segmentAt x l).band = (x, w l)) {x : ℚ} {ls : List Lithology}
    {s : Segment σ} (hs : s ∈ placed segmentAt x ls) : s.width = w s.lith := by
  induction ls generalizing x with
  | nil => cases hs
  | cons l ls ih =>
    rcases List.mem_cons.mp hs with rfl | hs
    · rw [hlith]
      exact congrArg Prod.snd (hband x l)
    · exact ih hs

end Placed

/-! ## 4. The total

The widths add up to the track's exactly if the shares add up to the total.  Of the components
without a percentage the share counts and the total does not, so the two are compared by counting
these. -/

/-- The sum of the percentages that are there. -/
def given (liths : List Lithology) : ℚ := (liths.map fun l => l.lithPc.getD 0).sum

/-- The total is the sum, or the number of components. -/
theorem totalPc_eq (liths : List Lithology) :
    totalPc liths = if given liths = 0 then (liths.length : ℚ) else given liths := by
  have hsum : liths.foldl (fun acc l => acc + l.lithPc.getD 0) 0 = given liths := by
    rw [given, List.sum_eq_foldl, List.foldl_map]
  rw [totalPc, hsum]

/-- A default counts once for each component without a percentage. -/
theorem sum_getD (d : ℚ) (liths : List Lithology) :
    (liths.map fun l => l.lithPc.getD d).sum =
      given liths + (liths.countP fun l => l.lithPc.isNone) * d := by
  induction liths with
  | nil => simp [given]
  | cons l ls ih =>
    rw [given, List.map_cons, List.sum_cons, List.map_cons, List.sum_cons, ih, ← given,
      List.countP_cons]
    cases hpc : l.lithPc with
    | none =>
      simp
      ring
    | some p =>
      simp
      ring

/-- None is without a percentage exactly if all have one. -/
theorem countP_isNone_eq_zero {liths : List Lithology} :
    (liths.countP fun l => l.lithPc.isNone) = 0 ↔ ∀ l ∈ liths, l.lithPc ≠ none := by
  rw [List.countP_eq_zero]
  simp only [Option.isNone_iff_eq_none, ne_eq]

theorem Percentages.getD_nonneg {liths : List Lithology} (h : Percentages liths) {d : ℚ}
    (hd : 0 ≤ d) {l : Lithology} (hl : l ∈ liths) : 0 ≤ l.lithPc.getD d := by
  cases hpc : l.lithPc with
  | none => exact hd
  | some p => exact h.nonneg l hl p hpc

theorem Percentages.given_nonneg {liths : List Lithology} (h : Percentages liths) :
    0 ≤ given liths := by
  refine List.sum_nonneg fun x hx => ?_
  obtain ⟨l, hl, rfl⟩ := List.mem_map.mp hx
  exact h.getD_nonneg le_rfl hl

/-- **The percentages add up to zero exactly if there is none.** -/
theorem Percentages.given_eq_zero_iff {liths : List Lithology} (h : Percentages liths) :
    given liths = 0 ↔ ∀ l ∈ liths, l.lithPc = none := by
  constructor
  · intro hzero l hl
    by_contra hpc
    obtain ⟨l', hl', p, hp, hpos⟩ := h.positive l hl hpc
    have hle : l'.lithPc.getD 0 ≤ given liths := by
      refine List.single_le_sum (fun x hx => ?_) _ (List.mem_map_of_mem hl')
      obtain ⟨l'', hl'', rfl⟩ := List.mem_map.mp hx
      exact h.getD_nonneg le_rfl hl''
    rw [hp, hzero] at hle
    exact absurd hle (not_le.mpr hpos)
  · intro hnone
    refine List.sum_eq_zero fun x hx => ?_
    obtain ⟨l, hl, rfl⟩ := List.mem_map.mp hx
    rw [hnone l hl]
    rfl

theorem Percentages.totalPc_pos {liths : List Lithology} (h : Percentages liths)
    (hne : liths ≠ []) : 0 < totalPc liths := by
  rw [totalPc_eq]
  split
  · exact Nat.cast_pos.mpr (List.length_pos_of_ne_nil hne)
  · exact lt_of_le_of_ne h.given_nonneg (Ne.symm ‹_›)

/-- **The shares add up to the total exactly if** the percentages are evenly given.  If some have
one and some do not, each of the latter adds to the left side only; if none has, the left side is a
hundred and the right side their number. -/
theorem Percentages.sum_pc_iff {liths : List Lithology} (h : Percentages liths)
    (hne : liths ≠ []) :
    (liths.map (pc liths)).sum = totalPc liths ↔ EvenlyGiven liths := by
  have hlength : (liths.length : ℚ) ≠ 0 :=
    Nat.cast_ne_zero.mpr (List.length_pos_of_ne_nil hne).ne'
  have hsum : (liths.map (pc liths)).sum = given liths +
      (liths.countP fun l => l.lithPc.isNone) * (100 / liths.length) := sum_getD _ liths
  rw [hsum, totalPc_eq, EvenlyGiven]
  by_cases hzero : given liths = 0
  · -- no percentage: each component has an equal share of a hundred, the total is their number
    have hnone := h.given_eq_zero_iff.mp hzero
    have hcount : (liths.countP fun l => l.lithPc.isNone) = liths.length :=
      List.countP_eq_length.mpr fun l hl => by rw [hnone l hl]; rfl
    have hsome : ¬∀ l ∈ liths, l.lithPc ≠ none := by
      obtain ⟨l, ls, rfl⟩ := List.exists_cons_of_ne_nil hne
      exact fun hall => hall l List.mem_cons_self (hnone l List.mem_cons_self)
    rw [if_pos hzero, hzero, hcount, zero_add, mul_div_cancel₀ _ hlength]
    constructor
    · intro heq
      exact Or.inr ⟨hnone, by exact_mod_cast heq.symm⟩
    · intro heven
      obtain ⟨-, hhundred⟩ := heven.resolve_left hsome
      rw [hhundred]
      norm_num
  · rw [if_neg hzero, add_eq_left, mul_eq_zero, div_eq_zero_iff, Nat.cast_eq_zero,
      countP_isNone_eq_zero]
    constructor
    · rintro (hall | hhundred | hlen)
      · exact Or.inl hall
      · norm_num at hhundred
      · exact absurd hlen hlength
    · rintro (hall | ⟨hnone, -⟩)
      · exact Or.inl hall
      · exact absurd (h.given_eq_zero_iff.mpr hnone) hzero

/-! ## 5. The bands of an interval

An interval without components is drawn as one component of the interval's own type, with a hundred
percent, and fills the track. -/

/-- What an interval without components is drawn with is as evenly given as its own list. -/
theorem evenlyGiven_effectiveLiths (iv : GeologyInterval) :
    EvenlyGiven (effectiveLiths iv) ↔ EvenlyGiven iv.lithologies := by
  rw [effectiveLiths]
  split
  · rfl
  · rename_i hempty
    have hnil : iv.lithologies = [] := by simpa using hempty
    rw [hnil]
    refine ⟨fun _ => Or.inl fun l hl => absurd hl List.not_mem_nil, fun _ => Or.inl fun l hl => ?_⟩
    rw [List.mem_singleton.mp hl]
    exact Option.some_ne_none _

theorem effectiveLiths_ne_nil (iv : GeologyInterval) : effectiveLiths iv ≠ [] := by
  rw [effectiveLiths]
  split
  · rename_i hlength
    exact List.ne_nil_of_length_pos hlength
  · exact List.cons_ne_nil _ _

/-- What is drawn has percentages like the list's own. -/
theorem Percentages.effectiveLiths {iv : GeologyInterval} (h : Percentages iv.lithologies) :
    Percentages (effectiveLiths iv) := by
  rw [LithologyTrack.effectiveLiths]
  split
  · exact h
  · constructor
    · intro l hl p hp
      rw [List.mem_singleton.mp hl] at hp
      obtain rfl := Option.some.inj hp
      norm_num
    · exact fun l hl _ => ⟨_, List.mem_singleton_self _, 100, rfl, by norm_num⟩

/-- The segments of an interval are apart from each other, and in the ratio of the percentages. -/
theorem fillsTrack_iff_total (track : Track σ) (hwidth : 0 < track.width) {iv : GeologyInterval}
    {top bottom : ℚ} (htop : iv.mdTop = some top) (hbottom : iv.mdBottom = some bottom)
    (h : top < bottom) (hpc : Percentages iv.lithologies) :
    FillsTrack track.width (effectiveLiths iv) (intervalSegments track iv) ↔
      ((intervalSegments track iv).map Segment.width).sum = track.width := by
  refine ⟨fun hfills => hfills.total, fun htotal => ?_⟩
  have hpc := hpc.effectiveLiths
  have htotalPc := hpc.totalPc_pos (effectiveLiths_ne_nil iv)
  have hseg := intervalSegments_eq track htop hbottom h
  have hliths : (intervalSegments track iv).map Segment.lith = effectiveLiths iv := by
    rw [hseg]
    exact placed_liths (fun _ _ => rfl) 0 _
  have hwidths : ∀ s ∈ intervalSegments track iv,
      s.width = pc (effectiveLiths iv) s.lith / totalPc (effectiveLiths iv) * track.width := by
    intro s hs
    rw [hseg] at hs
    exact placed_width (fun _ _ => rfl) (fun _ _ => rfl) hs
  have hnonneg : ∀ s ∈ intervalSegments track iv, 0 ≤ s.width := by
    intro s hs
    have hlith : s.lith ∈ effectiveLiths iv := hliths ▸ List.mem_map_of_mem hs
    have hshare : 0 ≤ pc (effectiveLiths iv) s.lith := hpc.getD_nonneg (by positivity) hlith
    rw [hwidths s hs]
    positivity
  have hedges : EdgeToEdge 0 ((intervalSegments track iv).map Segment.band) := by
    rw [hseg, placed_bands (fun _ _ => rfl)]
    exact edgeToEdge_layout _ _
  refine ⟨hliths, hnonneg, hedges, ?_, htotal, ?_⟩
  · refine List.pairwise_map.mp (hedges.apart fun b hb => ?_)
    obtain ⟨s, hs, rfl⟩ := List.mem_map.mp hb
    exact hnonneg s hs
  · intro s hs s' hs' p p' hp hp'
    rw [hwidths s hs, hwidths s' hs', pc, pc, hp, hp', Option.getD_some, Option.getD_some]
    ring

/-- **The bands of an interval fill the track exactly if** every component has a percentage, or
none has and there are a hundred of them.

The interval has a top above its bottom, and the track a width; others have no segments at all.
Percentages may be zero, as long as not all of those that are given are. -/
theorem lithology_fills_iff (track : Track σ) (hwidth : 0 < track.width) {iv : GeologyInterval}
    {top bottom : ℚ} (htop : iv.mdTop = some top) (hbottom : iv.mdBottom = some bottom)
    (h : top < bottom) (hpc : Percentages iv.lithologies) :
    FillsTrack track.width (effectiveLiths iv) (intervalSegments track iv) ↔
      EvenlyGiven iv.lithologies := by
  have hne := effectiveLiths_ne_nil iv
  have htotalPc := hpc.effectiveLiths.totalPc_pos hne
  have hsum : ((intervalSegments track iv).map Segment.width).sum =
      ((effectiveLiths iv).map (pc (effectiveLiths iv))).sum / totalPc (effectiveLiths iv) *
        track.width := by
    rw [intervalSegments_eq track htop hbottom h, placed_widths fun _ _ => rfl]
    exact sum_shares _ _ _ _
  rw [fillsTrack_iff_total track hwidth htop hbottom h hpc, hsum,
    ← evenlyGiven_effectiveLiths, ← hpc.effectiveLiths.sum_pc_iff hne,
    mul_eq_right₀ hwidth.ne', div_eq_one_iff_eq htotalPc.ne']

/-- The segments of a track are those of its intervals. -/
theorem segments_eq_flatMap (track : Track σ) (intervals : List GeologyInterval) :
    segments track intervals = intervals.flatMap (intervalSegments track) :=
  List.flatMap_eq_foldl.symm

/-- A lithology with a percentage, or without. -/
def component (type : String) (lithPc : Option ℚ) : Lithology :=
  { type := some type.toList, lithPc }

/-- An interval between two depths. -/
def intervalOf (liths : List Lithology) : GeologyInterval :=
  ⟨none, some 1000, some 1010, liths, none⟩

/-- A track of the default size, without styles. -/
def plainTrack : Track Unit := ⟨0, 2000, 480, 64, fun _ => ()⟩

/-- Sand and shale, seventy to thirty. -/
theorem lithology_fills_sandShale :
    FillsTrack 64 (effectiveLiths (intervalOf [component "sand" (some 70),
        component "shale" (some 30)]))
      (intervalSegments plainTrack (intervalOf [component "sand" (some 70),
        component "shale" (some 30)])) := by
  refine (lithology_fills_iff plainTrack (by norm_num [plainTrack]) rfl rfl (by norm_num)
    ⟨?_, ?_⟩).mpr (Or.inl ?_)
  · simp [intervalOf, component]
  · simp [intervalOf, component]
  · simp [intervalOf, component]

/-- **A component without a percentage overflows the track**: next to fifty percent of sand, shale
is drawn as wide again as the track. -/
theorem lithology_overflow :
    Percentages [component "sand" (some 50), component "shale" none] ∧
      (intervalSegments plainTrack (intervalOf [component "sand" (some 50),
        component "shale" none])).map Segment.width = [64, 64] ∧
      ¬FillsTrack 64 (effectiveLiths (intervalOf [component "sand" (some 50),
          component "shale" none]))
        (intervalSegments plainTrack (intervalOf [component "sand" (some 50),
          component "shale" none])) := by
  have hwidths : (intervalSegments plainTrack (intervalOf [component "sand" (some 50),
      component "shale" none])).map Segment.width = [64, 64] := by
    decide +kernel
  refine ⟨⟨by simp [component], by simp [component]⟩, hwidths, fun hfills => ?_⟩
  have htotal := hfills.total
  rw [hwidths] at htotal
  norm_num at htotal

end LithologyTrack
end WitsmlViewer
