/-
# Wildcard patterns

A pattern is a list of tokens: a letter, any one letter, or any run of letters.  `accepts` runs a
pattern on a word, `Reads` says which words a pattern stands for.

* `accepts_iff`: the two agree;
* `reads_within`: between two runs of letters a pattern is searched for inside the word;
* `reads_literal`: a pattern of letters stands for one word;
* `reads_fill`: a pattern stands for the word that has its wildcards filled in.

A matcher with a run of letters tries each place in turn and goes back when it fails; the meaning
of a pattern knows nothing of this.  Escaped letters are letters, so that how a pattern is written
does not concern this module.
-/
import Mathlib

namespace Wildcards

variable {α : Type*}

/-- A letter stands for itself; the other two are wildcards. -/
inductive Token (α : Type*)
  | letter (a : α)
  | anyLetter
  | anyRun
deriving DecidableEq

open Token

/-- Run a pattern on a word. -/
def accepts [DecidableEq α] : List (Token α) → List α → Bool
  | [], s => s.isEmpty
  | letter a :: p, s => match s with
    | [] => false
    | c :: s => decide (a = c) && accepts p s
  | anyLetter :: p, s => match s with
    | [] => false
    | _ :: s => accepts p s
  | anyRun :: p, s => s.tails.any (accepts p)

/-- The words that a pattern stands for. -/
inductive Reads : List (Token α) → List α → Prop
  | nil : Reads [] []
  | letter (a : α) {p : List (Token α)} {s : List α} : Reads p s → Reads (letter a :: p) (a :: s)
  | anyLetter (c : α) {p : List (Token α)} {s : List α} :
      Reads p s → Reads (anyLetter :: p) (c :: s)
  | anyRun (w : List α) {p : List (Token α)} {s : List α} :
      Reads p s → Reads (anyRun :: p) (w ++ s)

theorem reads_nil_iff {s : List α} : Reads [] s ↔ s = [] := by
  constructor
  · intro h
    cases h
    rfl
  · rintro rfl
    exact .nil

/-- A run of letters takes some prefix of the word, and the rest is left to the rest of the
pattern. -/
theorem reads_anyRun_iff {p : List (Token α)} {s : List α} :
    Reads (anyRun :: p) s ↔ ∃ w s', s = w ++ s' ∧ Reads p s' := by
  constructor
  · intro h
    cases h with
    | anyRun w h => exact ⟨w, _, rfl, h⟩
  · rintro ⟨w, s', rfl, h⟩
    exact .anyRun w h

/-- **The matcher accepts what the pattern stands for.**

The induction is on the pattern, for all words at once.  Only a run of letters has several ways
to go on: the matcher tries every suffix of the word, and what comes before the right one is the
run. -/
theorem accepts_iff [DecidableEq α] {p : List (Token α)} {s : List α} :
    accepts p s = true ↔ Reads p s := by
  induction p generalizing s with
  | nil => rw [accepts, List.isEmpty_iff, reads_nil_iff]
  | cons token p ih =>
    cases token with
    | letter a =>
      cases s with
      | nil => exact ⟨fun h => by simp [accepts] at h, fun h => by cases h⟩
      | cons c s =>
        rw [accepts, Bool.and_eq_true, decide_eq_true_eq, ih]
        constructor
        · rintro ⟨rfl, h⟩
          exact .letter a h
        · intro h
          cases h with
          | letter a h => exact ⟨rfl, h⟩
    | anyLetter =>
      cases s with
      | nil => exact ⟨fun h => by simp [accepts] at h, fun h => by cases h⟩
      | cons c s =>
        rw [accepts, ih]
        constructor
        · exact .anyLetter c
        · intro h
          cases h with
          | anyLetter c h => exact h
    | anyRun =>
      rw [accepts, List.any_eq_true, reads_anyRun_iff]
      constructor
      · rintro ⟨s', hs', h⟩
        obtain ⟨w, rfl⟩ := (List.mem_tails s' s).mp hs'
        exact ⟨w, s', rfl, ih.mp h⟩
      · rintro ⟨w, s', rfl, h⟩
        exact ⟨s', (List.mem_tails s' _).mpr ⟨w, rfl⟩, ih.mpr h⟩

/-- One pattern after another: the word can be cut in two. -/
theorem reads_append_iff {p q : List (Token α)} {s : List α} :
    Reads (p ++ q) s ↔ ∃ u v, s = u ++ v ∧ Reads p u ∧ Reads q v := by
  induction p generalizing s with
  | nil =>
    constructor
    · exact fun h => ⟨[], s, rfl, .nil, h⟩
    · rintro ⟨u, v, rfl, hu, hv⟩
      rw [reads_nil_iff.mp hu]
      exact hv
  | cons token p ih =>
    constructor
    · intro h
      cases h with
      | letter a h =>
        obtain ⟨u, v, rfl, hu, hv⟩ := ih.mp h
        exact ⟨a :: u, v, rfl, .letter a hu, hv⟩
      | anyLetter c h =>
        obtain ⟨u, v, rfl, hu, hv⟩ := ih.mp h
        exact ⟨c :: u, v, rfl, .anyLetter c hu, hv⟩
      | anyRun w h =>
        obtain ⟨u, v, rfl, hu, hv⟩ := ih.mp h
        exact ⟨w ++ u, v, (List.append_assoc w u v).symm, .anyRun w hu, hv⟩
    · rintro ⟨u, v, rfl, hu, hv⟩
      cases hu with
      | letter a hu => exact .letter a (ih.mpr ⟨_, v, rfl, hu, hv⟩)
      | anyLetter c hu => exact .anyLetter c (ih.mpr ⟨_, v, rfl, hu, hv⟩)
      | anyRun w hu =>
        rw [List.append_assoc]
        exact .anyRun w (ih.mpr ⟨_, v, rfl, hu, hv⟩)

/-- **Between two runs of letters a pattern is searched for inside the word.**  With
`reads_literal` this is the ordinary search for a text, if the text has no wildcards in it. -/
theorem reads_within {p : List (Token α)} {s : List α} :
    Reads (anyRun :: (p ++ [anyRun])) s ↔ ∃ w, w <:+: s ∧ Reads p w := by
  rw [reads_anyRun_iff]
  constructor
  · rintro ⟨pre, rest, rfl, h⟩
    obtain ⟨w, post, rfl, hw, -⟩ := reads_append_iff.mp h
    exact ⟨w, ⟨pre, post, List.append_assoc pre w post⟩, hw⟩
  · rintro ⟨w, ⟨pre, post, rfl⟩, hw⟩
    have hpost : Reads [anyRun] post := by
      have hrun : Reads [anyRun] (post ++ []) := .anyRun post .nil
      rwa [List.append_nil] at hrun
    exact ⟨pre, w ++ post, List.append_assoc pre w post, reads_append_iff.mpr ⟨w, post, rfl, hw, hpost⟩⟩

/-- **A pattern of letters stands for one word.** -/
theorem reads_literal {w s : List α} : Reads (w.map letter) s ↔ s = w := by
  induction w generalizing s with
  | nil => exact reads_nil_iff
  | cons a w ih =>
    constructor
    · intro h
      cases h with
      | letter a h => rw [ih.mp h]
    · rintro rfl
      exact .letter a (ih.mpr rfl)

/-! ## Filled in -/

/-- The wildcards filled in: one letter for each, or none for a run. -/
def fill (a : α) (p : List (Token α)) : List α :=
  p.flatMap fun token => match token with
    | letter c => [c]
    | anyLetter => [a]
    | anyRun => []

/-- A pattern stands for the word that has its wildcards filled in.

When a text has wildcards in it, a search for it finds more than the text, and a filled-in pattern
shows it: it is found, and need not contain the text. -/
theorem reads_fill (a : α) (p : List (Token α)) : Reads p (fill a p) := by
  induction p with
  | nil => exact .nil
  | cons token p ih =>
    cases token with
    | letter c => exact .letter c ih
    | anyLetter => exact .anyLetter a ih
    | anyRun => exact .anyRun [] ih

theorem mem_fill {a c : α} {p : List (Token α)} (h : c ∈ fill a p) : c = a ∨ letter c ∈ p := by
  obtain ⟨token, htoken, hc⟩ := List.mem_flatMap.mp h
  cases token with
  | letter d =>
    obtain rfl := List.mem_singleton.mp hc
    exact Or.inr htoken
  | anyLetter => exact Or.inl (List.mem_singleton.mp hc)
  | anyRun => cases hc

end Wildcards
