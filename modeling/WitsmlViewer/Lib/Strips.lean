/-
# Equal neighbours drawn as one strip

Samples along an axis, each with a key.  `lay` draws them from left to right: a sample reaches to
the next one, and prolongs the last strip if it has its key.  Positions may be of any type; they are
compared by their `place`.

* `laid_lay`: what is drawn before the last sample covers the samples so far.
* `covers_lay`, `fits_of_wide_lay`: the strips cover the samples if the last sample reaches past its
  own place, or prolongs a strip; else one of them is empty.
* `Covers.ordered`: the strips of a cover stand in order.

Positions are drawn, places are compared: the same moment can be written in several ways, and the
drawing keeps the writing it was given.
-/
import Mathlib

namespace Strips

/-- A key, from one position up to another. -/
structure Strip (I K : Type*) where
  key : K
  start : I
  stop : I

variable {I K L : Type*}

/-! ## 1. Drawing

A sample does not know how far it reaches until the next one comes, so each is drawn when its
successor is known, and the last one with a guess.  The strips are built at the end of the list,
and `extend` looks at the last one only. -/

section Drawing

variable [DecidableEq K]

/-- Draw a piece: the last strip is prolonged if it has the key of the piece. -/
def extend (strips : List (Strip I K)) (piece : Strip I K) : List (Strip I K) :=
  strips.getLast?.elim [piece] fun last =>
    if last.key = piece.key then strips.dropLast ++ [{ last with stop := piece.stop }]
    else strips ++ [piece]

/-- Draw samples one after another.  The last one reaches `past` its position. -/
def lay (past : I → I) : List (I × K) → List (Strip I K) → List (Strip I K)
  | [], strips => strips
  | p :: rest, strips =>
    lay past rest (extend strips ⟨p.2, p.1, (rest.head?.map Prod.fst).getD (past p.1)⟩)

@[simp] theorem extend_nil (piece : Strip I K) : extend [] piece = [piece] := rfl

/-- A piece with the last key makes the last strip longer; its left edge stays. -/
theorem extend_same {init : List (Strip I K)} {last piece : Strip I K}
    (h : last.key = piece.key) :
    extend (init ++ [last]) piece = init ++ [{ last with stop := piece.stop }] := by
  simp [extend, h]

/-- A piece with another key is a strip of its own. -/
theorem extend_other {init : List (Strip I K)} {last piece : Strip I K}
    (h : last.key ≠ piece.key) : extend (init ++ [last]) piece = init ++ [last] ++ [piece] := by
  simp [extend, h]

/-- The last sample is drawn last, and the one before it reaches up to it. -/
theorem lay_concat (past : I → I) (p : I × K) (samples : List (I × K)) :
    ∀ strips : List (Strip I K), lay past (samples ++ [p]) strips =
      extend (lay (fun _ => p.1) samples strips) ⟨p.2, p.1, past p.1⟩ := by
  induction samples with
  | nil => exact fun strips => rfl
  | cons q rest ih =>
    intro strips
    have hnext : ((rest ++ [p]).head?.map Prod.fst).getD (past q.1) =
        (rest.head?.map Prod.fst).getD p.1 := by
      cases rest with
      | nil => rfl
      | cons _ _ => rfl
    rw [List.cons_append, lay, lay, ih, hnext]

end Drawing

/-! ## 2. Covers

A cover says what a reader of the drawing may rely on: no gap, no overlap, no empty strip, and
every sample in a strip of its key.  `Laid` is a cover that is not finished; its last strip reaches
up to where the next sample will be. -/

section Covering

variable [LinearOrder L] (place : I → L)

/-- Strips that cover samples: edge to edge from the first sample on, none of them empty, and each
sample in a strip of its key.  A strip has its left edge; the last one has its right edge too. -/
structure Covers (samples : List (I × K)) (strips : List (Strip I K)) : Prop where
  first : strips.head?.map Strip.start = samples.head?.map Prod.fst
  joined : strips.IsChain fun s s' => s.stop = s'.start
  wide : ∀ s ∈ strips, place s.start < place s.stop
  distinct : strips.IsChain fun s s' => s.key ≠ s'.key
  opened : ∀ s ∈ strips, ∃ p ∈ samples, s.start = p.1
  carried : ∀ p ∈ samples, ∃ s ∈ strips, s.key = p.2 ∧ place s.start ≤ place p.1 ∧
    (place p.1 < place s.stop ∨ strips.getLast? = some s ∧ place p.1 ≤ place s.stop)

/-- A cover that reaches up to `stop`, with all of its samples before it. -/
structure Laid (samples : List (I × K)) (strips : List (Strip I K)) (stop : I) : Prop
    extends Covers place samples strips where
  reaches : ∀ s ∈ strips.getLast?, s.stop = stop
  before : ∀ p ∈ samples, place p.1 < place stop
  lastKey : strips.getLast?.map Strip.key = samples.getLast?.map Prod.snd

variable {place}

theorem laid_nil (stop : I) : Laid place ([] : List (I × K)) [] stop where
  first := rfl
  joined := .nil
  wide := by simp
  distinct := .nil
  opened := by simp
  carried := by simp
  reaches := by simp
  before := by simp
  lastKey := rfl

/-- **The strips of a cover stand in order.**  Each one begins where the one before it ends, and
none is empty. -/
theorem Covers.ordered {samples : List (I × K)} {strips : List (Strip I K)}
    (h : Covers place samples strips) :
    strips.Pairwise fun s s' => place s.start < place s'.start := by
  obtain ⟨-, hjoined, hwide, -, -, -⟩ := h
  have hchain : strips.IsChain fun s s' => place s.start < place s'.start := by
    refine (List.isChain_iff_getElem.mpr fun i hi => ?_)
    have hstep := List.isChain_iff_getElem.mp hjoined i hi
    have hlt := hwide strips[i] (List.getElem_mem _)
    rwa [hstep] at hlt
  exact List.isChain_iff_pairwise.mp hchain

end Covering

/-! ## 3. One more sample

Two cases, the sample's key being the last one or another.  In the first the last strip moves its
right edge, in the second a new strip is put behind it; all of the invariant has to be carried over
in both. -/

section Step

variable [LinearOrder L] {place : I → L} {samples : List (I × K)} {strips init : List (Strip I K)}
  {last : Strip I K} {p : I × K} {stop : I}

/-- If there is a strip, there was a sample. -/
theorem Laid.samples_ne_nil (h : Laid place samples (init ++ [last]) stop) : samples ≠ [] := by
  rintro rfl
  simpa using h.lastKey

/-- A sample with the key of the last strip prolongs it. -/
theorem Laid.covers_prolong (h : Laid place samples (init ++ [last]) p.1) (hkey : last.key = p.2)
    (hle : place p.1 ≤ place stop) :
    Covers place (samples ++ [p]) (init ++ [{ last with stop := stop }]) := by
  have hreach : last.stop = p.1 := h.reaches last (by simp)
  have hlast : place last.start < place p.1 := hreach ▸ h.wide last (by simp)
  obtain ⟨hinit, -, hedge⟩ := List.isChain_append.mp h.joined
  obtain ⟨hinit', -, hkeys⟩ := List.isChain_append.mp h.distinct
  refine ⟨?_, ?_, ?_, ?_, ?_, ?_⟩
  · have hfirst := h.first
    rw [List.head?_append_of_ne_nil _ h.samples_ne_nil, ← hfirst]
    cases init with
    | nil => rfl
    | cons _ _ => rfl
  · refine List.isChain_append.mpr ⟨hinit, .singleton _, fun s hs s' hs' => ?_⟩
    obtain rfl : { last with stop := stop } = s' := by simpa using hs'
    exact hedge s hs last rfl
  · intro s hs
    rcases List.mem_append.mp hs with hs | hs
    · exact h.wide s (List.mem_append_left _ hs)
    · obtain rfl := List.mem_singleton.mp hs
      exact hlast.trans_le hle
  · refine List.isChain_append.mpr ⟨hinit', .singleton _, fun s hs s' hs' => ?_⟩
    obtain rfl : { last with stop := stop } = s' := by simpa using hs'
    exact hkeys s hs last rfl
  · intro s hs
    have hopened : ∃ q ∈ samples, s.start = q.1 := by
      rcases List.mem_append.mp hs with hs | hs
      · exact h.opened s (List.mem_append_left _ hs)
      · obtain rfl := List.mem_singleton.mp hs
        exact h.opened last (by simp)
    obtain ⟨q, hq, hstart⟩ := hopened
    exact ⟨q, List.mem_append_left _ hq, hstart⟩
  · intro q hq
    -- what the last strip carried, it still carries
    have hnew : last.key = q.2 → place last.start ≤ place q.1 → place q.1 ≤ place p.1 →
        ∃ s ∈ init ++ [{ last with stop := stop }], s.key = q.2 ∧ place s.start ≤ place q.1 ∧
          (place q.1 < place s.stop ∨
            (init ++ [{ last with stop := stop }]).getLast? = some s ∧
              place q.1 ≤ place s.stop) := fun hk hs hq =>
      ⟨{ last with stop := stop }, by simp, hk, hs, .inr ⟨by simp, hq.trans hle⟩⟩
    rcases List.mem_append.mp hq with hq | hq
    · obtain ⟨s, hs, hk, hstart, hin⟩ := h.carried q hq
      rcases List.mem_append.mp hs with hs | hs
      · rcases hin with hin | ⟨hs', -⟩
        · exact ⟨s, List.mem_append_left _ hs, hk, hstart, .inl hin⟩
        · obtain rfl : last = s := by simpa using hs'
          exact hnew hk hstart (h.before q hq).le
      · obtain rfl := List.mem_singleton.mp hs
        exact hnew hk hstart (h.before q hq).le
    · obtain rfl := List.mem_singleton.mp hq
      exact hnew hkey hlast.le le_rfl

/-- A sample with another key opens a strip. -/
theorem Laid.covers_open (h : Laid place samples strips p.1)
    (hkey : ∀ s ∈ strips.getLast?, s.key ≠ p.2) (hlt : place p.1 < place stop) :
    Covers place (samples ++ [p]) (strips ++ [⟨p.2, p.1, stop⟩]) := by
  refine ⟨?_, ?_, ?_, ?_, ?_, ?_⟩
  · have hfirst := h.first
    rw [List.head?_append, List.head?_append, Option.map_or, Option.map_or, hfirst]
    rfl
  · refine List.isChain_append.mpr ⟨h.joined, .singleton _, fun s hs s' hs' => ?_⟩
    obtain rfl : (⟨p.2, p.1, stop⟩ : Strip I K) = s' := by simpa using hs'
    exact h.reaches s hs
  · intro s hs
    rcases List.mem_append.mp hs with hs | hs
    · exact h.wide s hs
    · obtain rfl := List.mem_singleton.mp hs
      exact hlt
  · refine List.isChain_append.mpr ⟨h.distinct, .singleton _, fun s hs s' hs' => ?_⟩
    obtain rfl : (⟨p.2, p.1, stop⟩ : Strip I K) = s' := by simpa using hs'
    exact hkey s hs
  · intro s hs
    rcases List.mem_append.mp hs with hs | hs
    · obtain ⟨q, hq, hstart⟩ := h.opened s hs
      exact ⟨q, List.mem_append_left _ hq, hstart⟩
    · obtain rfl := List.mem_singleton.mp hs
      exact ⟨p, by simp, rfl⟩
  · intro q hq
    rcases List.mem_append.mp hq with hq | hq
    · obtain ⟨s, hs, hk, hstart, hin⟩ := h.carried q hq
      refine ⟨s, List.mem_append_left _ hs, hk, hstart, .inl ?_⟩
      rcases hin with hin | ⟨hs', -⟩
      · exact hin
      · rw [h.reaches s hs']
        exact h.before q hq
    · obtain rfl := List.mem_singleton.mp hq
      exact ⟨⟨q.2, q.1, stop⟩, by simp, rfl, le_rfl, .inl hlt⟩

variable [DecidableEq K]

/-- A piece that reaches past its position, or prolongs the last strip.  The last strip has the key
of the last sample. -/
def Fits (place : I → L) (samples : List (I × K)) (p : I × K) (stop : I) : Prop :=
  place p.1 < place stop ∨ samples.getLast?.map Prod.snd = some p.2

/-- A piece that fits completes the cover.  A piece of no width does no harm if it prolongs a
strip, which has a width already. -/
theorem Laid.covers_extend (h : Laid place samples strips p.1) (hle : place p.1 ≤ place stop)
    (hfits : Fits place samples p stop) :
    Covers place (samples ++ [p]) (extend strips ⟨p.2, p.1, stop⟩) := by
  unfold Fits at hfits
  rw [← h.lastKey] at hfits
  rcases List.eq_nil_or_concat strips with rfl | ⟨init, last, rfl⟩
  · rcases hfits with hlt | hkey
    · exact h.covers_open (by simp) hlt
    · simp at hkey
  · rw [List.concat_eq_append] at h hfits ⊢
    by_cases hkey : last.key = p.2
    · rw [extend_same hkey]
      exact h.covers_prolong hkey hle
    · rw [extend_other hkey]
      rcases hfits with hlt | hsame
      · exact h.covers_open (by simpa using hkey) hlt
      · exact absurd (by simpa using hsame) hkey

/-- A piece that does not fit is an empty strip, and then the strips are not all of them wide. -/
theorem Laid.fits_of_wide (h : Laid place samples strips p.1)
    (hwide : ∀ s ∈ extend strips ⟨p.2, p.1, stop⟩, place s.start < place s.stop) :
    Fits place samples p stop := by
  unfold Fits
  rw [← h.lastKey]
  rcases List.eq_nil_or_concat strips with rfl | ⟨init, last, rfl⟩
  · exact .inl (hwide ⟨p.2, p.1, stop⟩ (by simp))
  · rw [List.concat_eq_append] at hwide ⊢
    by_cases hkey : last.key = p.2
    · exact .inr (by simp [hkey])
    · rw [extend_other hkey] at hwide
      exact .inl (hwide ⟨p.2, p.1, stop⟩ (by simp))

/-- **One more sample.**  A sample in the middle always reaches past its own position, because the
next one stands further on. -/
theorem Laid.extend (h : Laid place samples strips p.1) (hlt : place p.1 < place stop) :
    Laid place (samples ++ [p]) (extend strips ⟨p.2, p.1, stop⟩) stop where
  toCovers := h.covers_extend hlt.le (.inl hlt)
  reaches := by
    rcases List.eq_nil_or_concat strips with rfl | ⟨init, last, rfl⟩
    · simp
    · rw [List.concat_eq_append]
      by_cases hkey : last.key = p.2
      · rw [extend_same hkey]
        simp
      · rw [extend_other hkey]
        simp
  before := by
    intro q hq
    rcases List.mem_append.mp hq with hq | hq
    · exact (h.before q hq).trans hlt
    · obtain rfl := List.mem_singleton.mp hq
      exact hlt
  lastKey := by
    rcases List.eq_nil_or_concat strips with rfl | ⟨init, last, rfl⟩
    · simp
    · rw [List.concat_eq_append]
      by_cases hkey : last.key = p.2
      · rw [extend_same hkey]
        simp [hkey]
      · rw [extend_other hkey]
        simp

/-! ## 4. All of them

For all but the last sample there is nothing to assume.  The last one is different, since nothing
comes after it: how far it reaches is the guess, and the cover is complete exactly if the guess
fits. -/

/-- Samples in order along the axis. -/
abbrev Ascending (place : I → L) (samples : List (I × K)) : Prop :=
  samples.Pairwise fun p q => place p.1 < place q.1

/-- **What is drawn before a sample covers the samples before it.**  The induction is on the
samples, from the end of the list, as they are drawn. -/
theorem laid_lay (samples : List (I × K)) : ∀ p : I × K, Ascending place (samples ++ [p]) →
    Laid place samples (lay (fun _ => p.1) samples []) p.1 := by
  induction samples using List.reverseRecOn with
  | nil => exact fun p _ => laid_nil p.1
  | append_singleton samples q ih =>
    intro p hasc
    obtain ⟨hfront, -, hlast⟩ := List.pairwise_append.mp hasc
    have hlt : place q.1 < place p.1 := hlast q (by simp) p (by simp)
    rw [lay_concat]
    exact (ih q hfront).extend hlt

/-- **Strips whose last sample fits cover the samples.** -/
theorem covers_lay {past : I → I} (hasc : Ascending place (samples ++ [p]))
    (hle : place p.1 ≤ place (past p.1)) (hfits : Fits place samples p (past p.1)) :
    Covers place (samples ++ [p]) (lay past (samples ++ [p]) []) := by
  rw [lay_concat]
  exact (laid_lay samples p hasc).covers_extend hle hfits

/-- **No other strips are all of them wide.**  Together with `covers_lay` this makes the condition
exact. -/
theorem fits_of_wide_lay {past : I → I} (hasc : Ascending place (samples ++ [p]))
    (hwide : ∀ s ∈ lay past (samples ++ [p]) [], place s.start < place s.stop) :
    Fits place samples p (past p.1) := by
  rw [lay_concat] at hwide
  exact (laid_lay samples p hasc).fits_of_wide hwide

end Step

end Strips
