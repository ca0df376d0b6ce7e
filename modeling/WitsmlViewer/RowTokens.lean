/-
# The index tokens of the simulator

What a reader makes of a token, and when the next one is further along the log.  Depths are written
to three decimals and move by half a metre: on the grid of eighths, which are written exactly, no
step is lost in the writing.  What may be lost is the step itself, by rounding or by the clamp at
zero; and a clock that is written to the millisecond may stand still.

* `parseIndex_indexToken`: a token is read as the index of its state.
* `step_up`, `step_down`: a step of the depth that is not lost is shown.
* `emitRows_spec`: rows that all advance have indices in order.

This is the arithmetic half of what the feed has to do, with no store in it; `FreshRows` adds the store.
The condition `Advances` is about a state and the clock before a row is emitted.  It says nothing
of tokens, and the work of the module is to show that it is enough for the tokens to differ, and in
the right direction.

Writing to three decimals loses information, so one has to look at what a reader makes of the text.
 Two depths that differ by half a metre and are both far from zero differ in the text as well,
because rounding to a thousandth is monotone and fixes the eighths in between.
-/
import WitsmlViewer.Simulator

namespace WitsmlViewer
namespace Simulator

open Py

/-! ## 1. The condition

Where a row could fail to be new: the clock has not reached another millisecond; a depth is so
large that half a metre is lost in rounding, or has run up to infinity; a decreasing depth is at
the surface, where the clamp keeps it. -/

/-- A depth of the simulator: a number that is not below zero. -/
def DepthOk (x : Float64) : Prop := x ≠ .nan ∧ 0 ≤ x.rank

/-- The next row advances: the clock has reached another millisecond and the log is an increasing
one; or the step of the depth is not lost, and a decreasing depth is not shown as zero already. -/
def Advances (state : LogState) (now : Datetime) : Prop :=
  if state.indexType.isTime then
    state.direction = .increasing ∧ state.lastTime.floorMillis.micros < now.floorMillis.micros
  else if state.direction = .decreasing then
    fmtNum state.depth ≠ ['0'] ∧ state.depth.add depthStep.neg ≠ state.depth
  else state.depth.add depthStep ≠ state.depth

instance (state : LogState) (now : Datetime) : Decidable (Advances state now) :=
  inferInstanceAs (Decidable (if state.indexType.isTime = true then
    state.direction = .increasing ∧ state.lastTime.floorMillis.micros < now.floorMillis.micros
    else if state.direction = .decreasing then
      fmtNum state.depth ≠ ['0'] ∧ state.depth.add depthStep.neg ≠ state.depth
    else state.depth.add depthStep ≠ state.depth))

/-- Each of some rows advances. -/
def AllAdvance (env : Env) : LogState → List RowInput → Prop
  | _, [] => True
  | state, input :: inputs =>
    Advances state input.now ∧ AllAdvance env (emitRow env true state input).2 inputs

/-- The condition on an event. -/
def Rig.Meets (rig : Rig) (feed : Feed) : Event → Prop
  | .tick tickNo inputs => AllAdvance rig.env feed.state (rig.tickInputs tickNo inputs)
  | _ => True

/-! ## 2. What a reader makes of a token

Tokens contain digits, signs, points and the letters of an instant, so splitting a line and
stripping a cell leave them alone. -/

/-- The index of a state, as it is read from the token. -/
def LogState.index (state : LogState) : Value :=
  if state.indexType.isTime then .dt state.lastTime.floorMillis.replaceUtc
  else .num (state.depth.shown 3)

/-- A log over time is none over depth. -/
theorem LogState.isDepth_eq (state : LogState) :
    isDepth state.indexType = !state.indexType.isTime := by
  have hcatalog := state.catalog
  cases ht : state.indexType <;> rw [ht] at hcatalog <;> simp_all [isDepth, IndexType.isTime]

/-- A state whose depth is one, if it is a log over depth. -/
def LogState.Sound (state : LogState) : Prop :=
  state.indexType.isTime = false → DepthOk state.depth

/-- A depth that has been written is read as the number that its text shows. -/
theorem float?_fmtNum {x : Float64} (h : DepthOk x) : float? (fmtNum x) = some (x.shown 3) := by
  rw [fmtNum, if_neg h.1]
  rcases Float64.cases_of_nonneg h.1 h.2 with ⟨d, rfl, hnonneg⟩ | rfl
  · split
    · rename_i hint
      have hdvd : unitsPerOne ∣ d.units.natAbs := by
        rw [Float64.isInteger, beq_iff_eq] at hint
        exact Int.natCast_dvd.mp (Int.dvd_of_emod_eq_zero hint)
      rw [unitsPerOne_eq_eighths] at hdvd
      rw [float?_strInt hint, Float64.shown_eighth hnonneg ((Nat.dvd_mul_left _ _).trans hdvd)]
    · rw [float?_trimmed 3 hnonneg, Float64.shown_of_nonneg 3 hnonneg]
  · exact float?_inf false

/-- A character of a cell: plain, and no comma. -/
def ofCell (c : Char) : Bool := plain c && c != ','

theorem ofCell_of_isDigit {c : Char} (h : c.isDigit = true) : ofCell c = true := by
  have hcomma : c ≠ ',' := by
    rintro rfl
    exact absurd h (by decide)
  rw [ofCell, plain_of_isDigit h, Bool.true_and, bne_iff_ne]
  exact hcomma

theorem fmtNum_ofCell (x : Float64) : ∀ c ∈ fmtNum x, ofCell c = true := by
  unfold fmtNum
  split
  · exact List.all_eq_true.mp (show defaultNullValue.all ofCell = true by decide)
  · split
    · exact strInt_all (fun _ hc => ofCell_of_isDigit hc) (by decide) _
    · exact trimmed_all (fun _ hc => ofCell_of_isDigit hc) (by decide) 3 x

theorem isoUtc_ofCell (dt : Datetime) : ∀ c ∈ isoUtc dt, ofCell c = true := by
  have hpad : ∀ k n, (pad k n).all ofCell = true := fun k n =>
    List.all_eq_true.mpr fun c hc => ofCell_of_isDigit (pad_isDigit k n c hc)
  have hmarks : ofCell '-' = true ∧ ofCell 'T' = true ∧ ofCell ':' = true ∧ ofCell '.' = true ∧
      ofCell 'Z' = true := by decide
  refine List.all_eq_true.mp ?_
  simp only [isoUtc, isoMillis, strftimeSeconds, List.all_append, List.all_cons, List.all_nil,
    hpad, hmarks, Bool.and_self]

theorem indexToken_ofCell (state : LogState) : ∀ c ∈ state.indexToken, ofCell c = true := by
  unfold LogState.indexToken
  split
  · exact isoUtc_ofCell _
  · exact fmtNum_ofCell _

/-- Text made of such characters stands in a cell as it is. -/
theorem cell_of_ofCell {s : Str} (h : ∀ c ∈ s, ofCell c = true) : strip s = s ∧ ',' ∉ s := by
  refine ⟨strip_of_plain fun c hc => ?_, fun hc => absurd (h ',' hc) (by decide)⟩
  have hc' := h c hc
  rw [ofCell, Bool.and_eq_true] at hc'
  exact hc'.1

/-- The store reads a depth token as a number. -/
theorem parseIndex_of_float {t : IndexType} (ht : t.isTime = false) {s : Str} {x : Float64}
    (hs : strip s = s) (h : float? s = some x) : parseIndex (some s) t = .ok (some (.num x)) := by
  have hne : s ≠ [] := by
    rintro rfl
    have hempty : float? [] = none := by decide
    rw [hempty] at h
    exact absurd h (by simp)
  simp [parseIndex, hs, hne, ht, h]

/-- It reads a time token as the instant, floored to the millisecond. -/
theorem parseIndex_isoUtc {t : IndexType} (ht : t.isTime = true) (dt : Datetime) :
    parseIndex (some (isoUtc dt)) t = .ok (some (.dt dt.floorMillis.replaceUtc)) := by
  have hstrip : strip (isoUtc dt) = isoUtc dt := (cell_of_ofCell (isoUtc_ofCell dt)).1
  have hne : isoUtc dt ≠ [] := by simp [isoUtc, isoMillis]
  have hread : parseDt (isoUtc dt) = .ok (some dt.floorMillis.replaceUtc) :=
    parseDatetime_isoMillis dt
  simp only [parseIndex, hstrip, hne, if_false, ht, if_true, hread]
  rfl

/-- **A token is read as the index of its state.** -/
theorem parseIndex_indexToken {state : LogState} (h : state.Sound) :
    parseIndex (some state.indexToken) state.indexType = .ok (some state.index) := by
  unfold LogState.indexToken LogState.index
  cases ht : state.indexType.isTime with
  | true => exact parseIndex_isoUtc ht _
  | false =>
    exact parseIndex_of_float ht (cell_of_ofCell (fmtNum_ofCell _)).1 (float?_fmtNum (h ht))

/-- What is shown of a number is a number. -/
theorem shown_ne_nan {x : Float64} (h : x ≠ .nan) : x.shown 3 ≠ .nan := by
  cases x with
  | fin d => exact Float64.ofUnits_ne_nan _ _
  | inf _ => simp [Float64.shown]
  | nan => exact absurd rfl h

/-- The index of a sound state can be ordered. -/
theorem LogState.index_orders {state : LogState} (h : state.Sound) :
    state.index.Orders state.indexType := by
  unfold LogState.index
  cases ht : state.indexType.isTime with
  | true => exact ⟨ht, rfl⟩
  | false => exact ⟨ht, shown_ne_nan (h ht).1⟩

/-! ## 3. A step of the depth

On the way up the depth grows by half a metre, unless rounding swallows it.  On the way down it
shrinks, is clamped at zero, and may be shown as zero before it is. -/

theorem rank_zero : (Float64.ofRatio 0 1).rank = 0 := by
  have hle : (Float64.ofRatio 0 1).rank ≤ 0 := by
    rw [Float64.ofRatio, Float64.rank_ofUnits_nonpos_iff]
    simp
  exact le_antisymm hle (Float64.rank_ofUnits_nonneg (by simp))

theorem zero_ne_nan : Float64.ofRatio 0 1 ≠ .nan := Float64.ofUnits_ne_nan _ _

/-- Zero is shown as it is. -/
theorem shown_zero : ((Float64.ofRatio 0 1).shown 3).rank = 0 := by
  have hrank := rank_zero
  cases hz : Float64.ofRatio 0 1 with
  | fin z =>
    rw [hz] at hrank
    have hunits : z.units = 0 := hrank
    rw [Float64.shown_eighth hunits.ge (by simp [hunits])]
    exact hrank
  | inf neg =>
    rw [hz] at hrank
    exact hrank
  | nan => exact absurd hz zero_ne_nan

/-- What is rounded to zero is shown as zero. -/
theorem fmtNum_of_scaled_zero {d : Double} (h : 0 ≤ d.units) (hscaled : scaled 3 d = 0) :
    fmtNum (.fin d) = ['0'] := by
  rw [fmtNum, if_neg (by simp)]
  split
  · rename_i hint
    have hzero : d.units = 0 := by
      rw [Float64.isInteger, beq_iff_eq] at hint
      have hpos := unitsPerOne_pos
      have hsmall : d.units.natAbs < unitsPerOne := by
        by_contra hlarge
        have hquot : 1000 ≤ d.units.natAbs * 10 ^ 3 / unitsPerOne := by
          rw [Nat.le_div_iff_mul_le hpos]
          omega
        have hround : d.units.natAbs * 10 ^ 3 / unitsPerOne ≤ scaled 3 d := by
          unfold scaled roundHalfEven
          split <;> omega
        omega
      rw [Int.emod_eq_of_lt h (by omega)] at hint
      exact hint
    have hint' : Float64.toInt (.fin d) = 0 := by simp [Float64.toInt, hzero]
    rw [hint']
    rfl
  · exact trimmed_of_scaled_zero h hscaled

theorem larger_zero_of_pos {y : Float64} (hnan : y ≠ .nan) (h : 0 < y.rank) :
    larger (.ofRatio 0 1) y = y := by
  have hlt : (Float64.ofRatio 0 1).lt y = true := by
    simp [Float64.lt, zero_ne_nan, hnan, rank_zero, h]
  rw [larger, if_pos hlt]

theorem larger_zero_of_nonpos {y : Float64} (h : y.rank ≤ 0) :
    larger (.ofRatio 0 1) y = .ofRatio 0 1 := by
  have hnot : ¬(Float64.ofRatio 0 1).lt y = true := by
    simp only [Float64.lt, rank_zero, Bool.and_eq_true, decide_eq_true_eq]
    omega
  rw [larger, if_neg hnot]

theorem DepthOk.cases {x : Float64} (h : DepthOk x) :
    (∃ d, x = .fin d ∧ 0 ≤ d.units) ∨ x = .inf false := Float64.cases_of_nonneg h.1 h.2

theorem inf_add_finite {x : Float64} (h : x.isFinite = true) :
    (Float64.inf false).add x = .inf false := by
  obtain ⟨d, rfl⟩ := Float64.exists_of_isFinite h
  rfl

/-- The step is half a metre, a finite number. -/
theorem depthStep_finite : depthStep.isFinite = true ∧ depthStep.neg.isFinite = true := by
  rw [depthStep, Float64.half_eq]
  exact ⟨rfl, rfl⟩

/-- A depth stays one on the way up. -/
theorem DepthOk.up {x : Float64} (h : DepthOk x) : DepthOk (x.add depthStep) := by
  rcases h.cases with ⟨d, rfl, hd⟩ | rfl
  · refine ⟨?_, hd.trans Float64.add_half_mono⟩
    rw [depthStep, Float64.add_half]
    exact Float64.ofUnits_ne_nan _ _
  · rwa [inf_add_finite depthStep_finite.1]

/-- The clamp keeps it one on the way down. -/
theorem DepthOk.down {x : Float64} (h : DepthOk x) :
    DepthOk (larger (.ofRatio 0 1) (x.add depthStep.neg)) := by
  have hnan : x.add depthStep.neg ≠ .nan := by
    rcases h.cases with ⟨d, rfl, -⟩ | rfl
    · rw [depthStep, Float64.sub_half]
      exact Float64.ofUnits_ne_nan _ _
    · rw [inf_add_finite depthStep_finite.2]
      exact h.1
  by_cases hpos : 0 < (x.add depthStep.neg).rank
  · rw [larger_zero_of_pos hnan hpos]
    exact ⟨hnan, hpos.le⟩
  · rw [larger_zero_of_nonpos (not_lt.mp hpos)]
    exact ⟨zero_ne_nan, rank_zero.ge⟩

/-- **A step up is shown, unless it is lost.** -/
theorem step_up {x : Float64} (h : DepthOk x) (hne : x.add depthStep ≠ x) :
    (x.shown 3).rank < ((x.add depthStep).shown 3).rank := by
  rcases h.cases with ⟨d, rfl, hd⟩ | rfl
  · exact Float64.shown_lt_add_half hd hne
  · exact absurd (inf_add_finite depthStep_finite.1) hne

/-- **A step down is shown, unless it is lost or starts from what is shown as zero.**  If the step
ends at zero it is shown as zero, and the depth before it was not; otherwise nothing was clamped,
and the two texts differ as on the way up. -/
theorem step_down {x : Float64} (h : DepthOk x) (hshown : fmtNum x ≠ ['0'])
    (hne : x.add depthStep.neg ≠ x) :
    ((larger (.ofRatio 0 1) (x.add depthStep.neg)).shown 3).rank < (x.shown 3).rank := by
  rcases h.cases with ⟨d, rfl, hd⟩ | rfl
  · have hsub := Float64.sub_half d
    by_cases hhalf : ((4 * eighth : ℕ) : ℤ) < d.units
    · have hpos : 0 < ((Float64.fin d).add depthStep.neg).rank := by
        rw [← not_le, depthStep, hsub, Float64.rank_ofUnits_nonpos_iff]
        omega
      have hnan : (Float64.fin d).add depthStep.neg ≠ .nan := by
        rw [depthStep, hsub]
        exact Float64.ofUnits_ne_nan _ _
      have hle : ((Float64.fin d).add depthStep.neg).rank ≤ d.units := Float64.sub_half_mono
      rw [larger_zero_of_pos hnan hpos]
      obtain ⟨e, hy⟩ := Float64.exists_of_le_fin hnan hpos.le hle
      rw [hy]
      refine Float64.shown_sub_half_lt hhalf hy fun heq => hne ?_
      rw [hy, heq]
    · have hnonpos : ((Float64.fin d).add depthStep.neg).rank ≤ 0 := by
        rw [depthStep, hsub, Float64.rank_ofUnits_nonpos_iff]
        omega
      rw [larger_zero_of_nonpos hnonpos, shown_zero]
      exact Float64.shown_pos hd fun hscaled => hshown (fmtNum_of_scaled_zero hd hscaled)
  · exact absurd (inf_add_finite depthStep_finite.2) hne

/-! ## 4. The rows of a tick

A tick emits one row, or a burst of several, each from the state that the one before has left. -/

/-- The same log, in another state. -/
structure SameLog (state state' : LogState) : Prop where
  wmlUid : state'.wmlUid = state.wmlUid
  indexType : state'.indexType = state.indexType
  direction : state'.direction = state.direction
  curves : state'.curves = state.curves

theorem SameLog.refl (state : LogState) : SameLog state state := ⟨rfl, rfl, rfl, rfl⟩

theorem SameLog.symm {a b : LogState} (h : SameLog a b) : SameLog b a :=
  ⟨h.1.symm, h.2.symm, h.3.symm, h.4.symm⟩

theorem SameLog.trans {a b c : LogState} (h : SameLog a b) (h' : SameLog b c) : SameLog a c :=
  ⟨h'.1.trans h.1, h'.2.trans h.2, h'.3.trans h.3, h'.4.trans h.4⟩

theorem sameLog_advance (env : Env) (now : Datetime) (state : LogState) :
    SameLog state (advance env now state) := by
  unfold advance
  dsimp only
  split <;> exact ⟨rfl, rfl, rfl, rfl⟩

theorem sameLog_emitRow (env : Env) (allowNull : Bool) (state : LogState) (input : RowInput) :
    SameLog state (emitRow env allowNull state input).2 := by
  obtain ⟨huid, htype, hdir, hcurves⟩ := sameLog_advance env input.now state
  exact ⟨huid, htype, hdir, hcurves⟩

/-- A row leaves the depth a depth. -/
theorem LogState.Sound.advance {state : LogState} (h : state.Sound) (env : Env) (now : Datetime) :
    (advance env now state).Sound := by
  intro htime
  rw [(sameLog_advance env now state).indexType] at htime
  have hkind := state.isDepth_eq
  rw [htime, Bool.not_false] at hkind
  unfold Simulator.advance
  simp only [hkind, if_true]
  split
  · exact (h htime).down
  · exact (h htime).up

/-- **A row that advances has an index further along the log.** -/
theorem Advances.index_lt (env : Env) {state : LogState} {now : Datetime}
    (h : Advances state now) (hsound : state.Sound) :
    growthKey state.direction state.index <
      growthKey state.direction (advance env now state).index := by
  have hkind := state.isDepth_eq
  unfold Advances at h
  unfold advance LogState.index
  cases ht : state.indexType.isTime with
  | true =>
    rw [ht] at h hkind
    obtain ⟨hdir, hlt⟩ := h
    simp only [hkind, Bool.not_true, Bool.false_eq_true, if_false, ht, if_true, hdir, growthKey,
      Value.rank, Datetime.replaceUtc_micros]
    exact_mod_cast hlt
  | false =>
    rw [ht] at h hkind
    have hdepth := hsound ht
    simp only [hkind, Bool.not_false, if_true, ht, Bool.false_eq_true, if_false]
    cases hdir : state.direction with
    | increasing =>
      rw [hdir] at h
      exact step_up hdepth h
    | decreasing =>
      rw [hdir] at h
      exact neg_lt_neg (step_down hdepth h.1 h.2)

/-- A row as the store can take it, and its index. -/
structure GoodRow (state : LogState) (row : EmittedRow) (v : Value) : Prop where
  read : parseIndex (some row.1) state.indexType = .ok (some v)
  orders : v.Orders state.indexType
  token : ∀ c ∈ row.1, ofCell c = true
  cells : ∀ cell ∈ row.2, ∀ c ∈ cell, ofCell c = true
  width : row.2.length = (state.curves.drop 1).length

/-- Whether a row is good depends on the log only. -/
theorem GoodRow.of_sameLog {state state' : LogState} {row : EmittedRow} {v : Value}
    (h : SameLog state state') (hrow : GoodRow state row v) : GoodRow state' row v :=
  ⟨h.indexType ▸ hrow.read, h.indexType ▸ hrow.orders, hrow.token, hrow.cells,
    h.curves ▸ hrow.width⟩

/-- An emitted row is good, with the index of the state that it leaves. -/
theorem goodRow_emitRow (env : Env) (allowNull : Bool) {state : LogState} (input : RowInput)
    (h : state.Sound) :
    GoodRow state (emitRow env allowNull state input).1
      (emitRow env allowNull state input).2.index := by
  refine GoodRow.of_sameLog (sameLog_advance env input.now state).symm ?_
  have hsound := h.advance env input.now
  refine ⟨parseIndex_indexToken hsound, LogState.index_orders hsound, indexToken_ofCell _,
    fun cell hcell => ?_, List.length_mapIdx⟩
  obtain ⟨i, hi, rfl⟩ := List.mem_mapIdx.mp hcell
  split
  · exact List.all_eq_true.mp (show defaultNullValue.all ofCell = true by decide)
  · exact fmtNum_ofCell _

/-- Indices that stand in order along a log. -/
abbrev Ascends (direction : Direction) (vs : List Value) : Prop :=
  vs.IsChain fun a b => growthKey direction a < growthKey direction b

/-- **Rows that all advance are good rows in order**, and the last one is that of the state. -/
theorem emitRows_spec (env : Env) : ∀ (inputs : List RowInput) (state : LogState),
    state.Sound → AllAdvance env state inputs →
    ∃ vs, List.Forall₂ (GoodRow state) (emitRows env state inputs).1 vs ∧
      Ascends state.direction (state.index :: vs) ∧
      (state.index :: vs).getLast? = some (emitRows env state inputs).2.index ∧
      (emitRows env state inputs).2.Sound ∧ SameLog state (emitRows env state inputs).2
  | [], state, hsound, _ => ⟨[], .nil, .singleton _, rfl, hsound, .refl state⟩
  | input :: inputs, state, hsound, hadv => by
    obtain ⟨hfirst, hrest⟩ := hadv
    have hlt := hfirst.index_lt env hsound
    have hmoved := hsound.advance env input.now
    have hsame := sameLog_emitRow env true state input
    obtain ⟨vs, hgood, hchain, hlast, hsound', hsame'⟩ :=
      emitRows_spec env inputs (emitRow env true state input).2 hmoved hrest
    have hrow := goodRow_emitRow env true input hsound
    refine ⟨(emitRow env true state input).2.index :: vs, .cons hrow ?_, ?_, ?_, hsound',
      hsame.trans hsame'⟩
    · exact hgood.imp fun row v h => h.of_sameLog hsame.symm
    · rw [hsame.direction] at hchain
      exact List.isChain_cons_cons.mpr ⟨hlt, hchain⟩
    · rw [List.getLast?_cons_cons]
      exact hlast

theorem length_emitRows (env : Env) : ∀ (inputs : List RowInput) (state : LogState),
    (emitRows env state inputs).1.length = inputs.length
  | [], _ => rfl
  | input :: inputs, state => by
    rw [emitRows, List.length_cons, length_emitRows env inputs, List.length_cons]

end Simulator
end WitsmlViewer
