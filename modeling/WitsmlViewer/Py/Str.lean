/-
# Python text

The part of `str` that a line-oriented protocol leans on: `strip`, `split` on one character,
`join`, and ASCII `lower`.  A `str` is a list of code points, so that every definition here
is structural and a closed instance of any of them can be decided.

What the development needs of them is small and is stated once, in this module:

* `split_join`: splitting what was joined gives the parts back, provided no part contains
  the separator (and there is at least one part);
* `strip_strip`: stripping twice is stripping once, and `strip_join`: what was joined from stripped
  parts is stripped.

The functions of `str` that take a set of characters or a longer separator are not here; where the
program uses one, it stands beside its only use.
-/
import Mathlib

namespace Py

/-- A Python `str`, as its list of code points. -/
abbrev Str := List Char

/-- Named, so that membership in a list of texts is decided by one and the same instance. -/
instance : LawfulBEq Str := inferInstanceAs (LawfulBEq (List Char))

/-! ## 1. `strip`

White space is Python's, not ASCII's: a text that comes over the wire may end in a no-break space,
and `strip` takes it away. -/

/-- `str.isspace` of one character: the code points Python strips. -/
def isSpace (c : Char) : Bool :=
  let n := c.toNat
  (9 ≤ n && n ≤ 13) || (28 ≤ n && n ≤ 32) || n == 0x85 || n == 0xA0 || n == 0x1680 ||
    (0x2000 ≤ n && n ≤ 0x200A) || n == 0x2028 || n == 0x2029 || n == 0x202F || n == 0x205F ||
    n == 0x3000

/-- `str.strip()`. -/
def strip (s : Str) : Str := (s.dropWhile isSpace).rdropWhile isSpace

/-- What `strip` keeps was there before.  A list of characters that a text may have is therefore
still good after stripping. -/
theorem mem_of_mem_strip {c : Char} {s : Str} (h : c ∈ strip s) : c ∈ s :=
  (List.dropWhile_sublist isSpace).subset ((List.rdropWhile_prefix isSpace _).subset h)

/-- A prefix of a word that does not start with a space does not start with one either. -/
theorem dropWhile_prefix_dropWhile {α : Type} {p : α → Bool} {l t : List α}
    (h : t <+: l.dropWhile p) : t.dropWhile p = t := by
  cases t with
  | nil => rfl
  | cons a t =>
    obtain ⟨r, hr⟩ := h
    have hne : l.dropWhile p ≠ [] := by rw [← hr]; simp
    have ha : p a = false := by
      have hnot := List.head_dropWhile_not p hne
      have hhead : (l.dropWhile p).head hne = a := by simp [← hr]
      rwa [hhead] at hnot
    simp [ha]

/-- Stripping twice is stripping once. -/
@[simp] theorem strip_strip (s : Str) : strip (strip s) = strip s := by
  have hleft : (strip s).dropWhile isSpace = strip s :=
    dropWhile_prefix_dropWhile (List.rdropWhile_prefix isSpace _)
  have hright : (strip s).rdropWhile isSpace = strip s :=
    List.rdropWhile_idempotent isSpace _
  calc strip (strip s) = ((strip s).dropWhile isSpace).rdropWhile isSpace := rfl
    _ = strip s := by rw [hleft, hright]

/-! ## 2. `split` and `join`

The two are inverse to each other only on one side.  A join loses where its parts end if a part has
the separator in it, and this is where a cell with a comma shifts the rest of its row. -/

/-- `s.split(sep)` for a one-character separator.  Never empty: `"".split(",")` is `[""]`. -/
def split (sep : Char) : Str → List Str
  | [] => [[]]
  | c :: s =>
    if c = sep then [] :: split sep s
    else match split sep s with
      | [] => [[c]]
      | w :: ws => (c :: w) :: ws

/-- `sep.join(ws)` for a one-character separator. -/
def join (sep : Char) : List Str → Str
  | [] => []
  | [w] => w
  | w :: ws => w ++ sep :: join sep ws

/-- A split has at least one part, that of the empty text too. -/
theorem split_ne_nil (sep : Char) (s : Str) : split sep s ≠ [] := by
  cases s with
  | nil => simp [split]
  | cons c s =>
    simp only [split]
    split
    · simp
    · split <;> simp

/-- A part of a split does not contain the separator. -/
theorem not_mem_of_mem_split {sep : Char} : ∀ {s w : Str}, w ∈ split sep s → sep ∉ w
  | [], w, h => by simp_all [split]
  | c :: s, w, h => by
    simp only [split] at h
    split at h
    · rcases List.mem_cons.mp h with rfl | h
      · simp
      · exact not_mem_of_mem_split h
    · rename_i hc
      split at h
      · rw [List.mem_singleton.mp h]
        exact fun hm => hc (List.mem_singleton.mp hm).symm
      · rename_i v vs hv
        have hsub : ∀ u ∈ v :: vs, sep ∉ u := fun u hu =>
          not_mem_of_mem_split (s := s) (by rw [hv]; exact hu)
        rcases List.mem_cons.mp h with rfl | h
        · intro hm
          rcases List.mem_cons.mp hm with rfl | hm
          · exact hc rfl
          · exact hsub v (by simp) hm
        · exact hsub w (by simp [h])

/-- A separator-free word splits into itself. -/
theorem split_of_not_mem {sep : Char} : ∀ {w : Str}, sep ∉ w → split sep w = [w]
  | [], _ => rfl
  | c :: w, h => by
    have hc : c ≠ sep := fun e => h (e ▸ List.mem_cons_self)
    have hw : sep ∉ w := fun e => h (List.mem_cons_of_mem _ e)
    simp [split, hc, split_of_not_mem hw]

/-- The first part of a split ends at the first separator. -/
theorem split_append_sep {sep : Char} : ∀ {w : Str}, sep ∉ w → ∀ s : Str,
    split sep (w ++ sep :: s) = w :: split sep s
  | [], _, s => by simp [split]
  | c :: w, h, s => by
    have hc : c ≠ sep := fun e => h (e ▸ List.mem_cons_self)
    have hw : sep ∉ w := fun e => h (List.mem_cons_of_mem _ e)
    simp [split, hc, split_append_sep hw]

/-- Splitting a join reads the first part back, whatever the other parts hold.  The first column of
a row survives what may be wrong in the others. -/
theorem split_join_cons {sep : Char} {w : Str} (h : sep ∉ w) (ws : List Str) :
    ∃ rest, split sep (join sep (w :: ws)) = w :: rest := by
  cases ws with
  | nil => exact ⟨[], by simp [join, split_of_not_mem h]⟩
  | cons v vs => exact ⟨_, by simp only [join]; exact split_append_sep h _⟩

/-- **Splitting what was joined gives the parts back**, when none contains the separator.

There has to be a part: joining none gives the empty text, and that is split into one. -/
theorem split_join {sep : Char} : ∀ {ws : List Str}, ws ≠ [] → (∀ w ∈ ws, sep ∉ w) →
    split sep (join sep ws) = ws
  | [], h, _ => absurd rfl h
  | [w], _, h => split_of_not_mem (h w (by simp))
  | w :: v :: vs, _, h => by
    have hrest : split sep (join sep (v :: vs)) = v :: vs :=
      split_join (by simp) fun u hu => h u (by simp [hu])
    simp only [join]
    rw [split_append_sep (h w (by simp)), hrest]

/-! ### Trimmed texts -/

/-- A text is trimmed if neither end is a space. -/
theorem strip_eq_self_iff {s : Str} :
    strip s = s ↔ (∀ c ∈ s.head?, isSpace c = false) ∧ ∀ c ∈ s.getLast?, isSpace c = false := by
  cases s with
  | nil => simp [strip]
  | cons a s =>
    constructor
    · intro h
      have hleft : (a :: s).dropWhile isSpace = a :: s := by
        rw [← h]
        exact dropWhile_prefix_dropWhile (List.rdropWhile_prefix isSpace _)
      have hright : (a :: s).rdropWhile isSpace = a :: s := by
        rw [← h]
        exact List.rdropWhile_idempotent isSpace _
      refine ⟨fun c hc => ?_, fun c hc => ?_⟩
      · obtain rfl := Option.some.inj hc
        by_contra ha
        have := List.length_dropWhile_le isSpace s
        have hlen := congrArg List.length hleft
        rw [List.dropWhile_cons_of_pos (by simpa using ha)] at hlen
        simp only [List.length_cons] at hlen
        omega
      · have hlast := List.rdropWhile_eq_self_iff.mp hright (List.cons_ne_nil a s)
        rw [List.getLast?_eq_some_getLast (List.cons_ne_nil a s)] at hc
        obtain rfl := Option.some.inj hc
        simpa using hlast
    · rintro ⟨hhead, hlast⟩
      have ha : isSpace a = false := hhead a rfl
      rw [strip, List.dropWhile_cons_of_neg (by simp [ha])]
      refine List.rdropWhile_eq_self_iff.mpr fun hne => ?_
      rw [hlast _ (List.getLast?_eq_some_getLast hne)]
      simp

theorem join_cons_cons (sep : Char) (w v : Str) (vs : List Str) :
    join sep (w :: v :: vs) = w ++ sep :: join sep (v :: vs) := rfl

/-- A join begins as its first part that is not empty does, or with the separator. -/
theorem head?_join {sep : Char} {ws : List Str} {c : Char} (h : c ∈ (join sep ws).head?) :
    c = sep ∨ ∃ w ∈ ws, c ∈ w.head? := by
  match ws with
  | [] => simp [join] at h
  | [w] => exact Or.inr ⟨w, by simp, h⟩
  | w :: v :: vs =>
    rw [join_cons_cons] at h
    cases w with
    | nil => exact Or.inl (Option.some.inj h).symm
    | cons a w => exact Or.inr ⟨a :: w, by simp, h⟩

theorem getLast?_join {sep : Char} : ∀ {ws : List Str} {c : Char},
    c ∈ (join sep ws).getLast? → c = sep ∨ ∃ w ∈ ws, c ∈ w.getLast?
  | [], c, h => by simp [join] at h
  | [w], c, h => Or.inr ⟨w, by simp, h⟩
  | w :: v :: vs, c, h => by
    rw [join_cons_cons, List.getLast?_append_of_ne_nil _ (by simp)] at h
    cases hjoin : join sep (v :: vs) with
    | nil =>
      rw [hjoin] at h
      exact Or.inl (Option.some.inj h).symm
    | cons a rest =>
      rw [hjoin, List.getLast?_cons_cons, ← hjoin] at h
      rcases getLast?_join h with hsep | ⟨u, hu, hc⟩
      · exact Or.inl hsep
      · exact Or.inr ⟨u, List.mem_cons_of_mem _ hu, hc⟩

/-- What is joined from trimmed parts is trimmed. -/
theorem strip_join {sep : Char} (hsep : isSpace sep = false) {ws : List Str}
    (h : ∀ w ∈ ws, strip w = w) : strip (join sep ws) = join sep ws := by
  refine strip_eq_self_iff.mpr ⟨fun c hc => ?_, fun c hc => ?_⟩
  · rcases head?_join hc with rfl | ⟨w, hw, hc⟩
    · exact hsep
    · exact (strip_eq_self_iff.mp (h w hw)).1 c hc
  · rcases getLast?_join hc with rfl | ⟨w, hw, hc⟩
    · exact hsep
    · exact (strip_eq_self_iff.mp (h w hw)).2 c hc

/-! ## 3. `lower`

Beyond ASCII, `lower` depends on Unicode tables and may change the length of a text.  What the
program lowers are the words of a protocol, which are ASCII, and the keyword of a search; the
module of the search says for which letters its result holds. -/

/-- `str.lower()` on ASCII letters; every other code point is left alone. -/
def lower (s : Str) : Str := s.map Char.toLower

end Py
