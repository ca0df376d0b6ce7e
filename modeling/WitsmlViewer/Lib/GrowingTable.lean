/-
# Reading a growing table page by page

A table is a list of entries in strictly ascending order of a key.  It grows at its upper end only:
nothing behind the last entry ever changes, and the last entry keeps its key (`Grows`).  A reader
collects the visible entries of one page after the other.  A page is a prefix of the entries from
some position on, cut off at a cap; the next page starts at or before the last visible key of the
one before.  The table may grow between any two pages.

Two invariants describe what the reader holds after some cut-off pages, when the last of them ended
at `c`:

* `Covers`: every visible entry up to `c` has been collected, and what has been collected will not
  change any more.  A page may start anywhere at or before `c` (`Covers.page`).
* `Stretch`: when every page starts exactly at `c` and every entry is visible, nothing beyond `c`
  has been collected, each page ends strictly further than it started, and `i` pages of `n` entries
  make at least `i * (n - 1) + 1` entries (`Stretch.page`).

`Covers.complete` and `Stretch.initial` say what this comes to after the last page.

Entries may be invisible, as lines are that the reader cannot make sense of, and a page may start
before `c`, as it does when a position is written with fewer digits than the table has.  This is
why the first invariant speaks of coverage and does not count entries.
-/
import Mathlib

namespace GrowingTable

variable {ε κ : Type*} [LinearOrder κ] {key : ε → κ}

/-! ## 1. Tables

What is used of an order again and again: a prefix is closed downwards, and the place of an entry
is the number of smaller keys.  Both turn facts about positions into facts about keys, which growth
respects. -/

/-- Strictly ascending keys. -/
def Ordered (key : ε → κ) (t : List ε) : Prop := t.Pairwise fun a b => key a < key b

/-- The entries at or after a position; `⊥` is before all of them. -/
def window (key : ε → κ) (lo : WithBot κ) (t : List ε) : List ε :=
  t.filter fun e => decide (lo ≤ (key e : WithBot κ))

/-- An entry is in the window if it is in the table and not before the position. -/
theorem mem_window {lo : WithBot κ} {t : List ε} {e : ε} :
    e ∈ window key lo t ↔ e ∈ t ∧ lo ≤ (key e : WithBot κ) := by
  simp [window]

theorem Ordered.window {t : List ε} (h : Ordered key t) (lo : WithBot κ) :
    Ordered key (window key lo t) :=
  h.sublist List.filter_sublist

/-- In an ordered table a key determines its entry. -/
theorem Ordered.eq_of_key : ∀ {t : List ε}, Ordered key t → ∀ {a b : ε}, a ∈ t → b ∈ t →
    key a = key b → a = b
  | x :: t, h, a, b, ha, hb, hk => by
    obtain ⟨hx, ht⟩ := List.pairwise_cons.mp h
    rcases List.mem_cons.mp ha with hax | hat <;> rcases List.mem_cons.mp hb with hbx | hbt
    · rw [hax, hbx]
    · rw [hax] at hk
      exact absurd hk (hx b hbt).ne
    · rw [hbx] at hk
      exact absurd hk (hx a hat).ne'
    · exact Ordered.eq_of_key ht hat hbt hk

theorem Ordered.nodup {t : List ε} (h : Ordered key t) : t.Nodup :=
  h.imp fun {a b} hlt (heq : a = b) => absurd hlt (heq ▸ lt_irrefl (key a))

/-- Ordered tables with the same entries are equal. -/
theorem Ordered.eq_of_mem_iff {t t' : List ε} (h : Ordered key t) (h' : Ordered key t')
    (hmem : ∀ e, e ∈ t ↔ e ∈ t') : t = t' := by
  have hanti : Std.Antisymm fun a b : ε => key a < key b :=
    ⟨fun a b hab hba => absurd hab (not_lt_of_gt hba)⟩
  have hirr : Std.Irrefl fun a b : ε => key a < key b := ⟨fun a => lt_irrefl _⟩
  exact List.Pairwise.eq_of_mem_iff h h' hmem

/-- A prefix of an ordered table is closed downwards. -/
theorem Ordered.mem_take_of_le {t : List ε} (h : Ordered key t) {n : ℕ} {e g : ε} (he : e ∈ t)
    (hg : g ∈ t.take n) (hle : key e ≤ key g) : e ∈ t.take n := by
  rw [← List.take_append_drop n t] at he
  rcases List.mem_append.mp he with he | he
  · exact he
  · have hsplit : (t.take n ++ t.drop n).Pairwise fun a b => key a < key b := by
      rw [List.take_append_drop]; exact h
    exact absurd hle (not_le.mpr ((List.pairwise_append.mp hsplit).2.2 g hg e he))

/-- The place of an entry in an ordered table is the number of entries with a smaller key. -/
theorem Ordered.mem_take_iff {t : List ε} (h : Ordered key t) {n : ℕ} {e : ε} :
    e ∈ t.take n ↔ e ∈ t ∧ (t.filter fun f => decide (key f < key e)).length < n := by
  induction t generalizing n with
  | nil => simp
  | cons x t ih =>
    obtain ⟨hx, ht⟩ := List.pairwise_cons.mp h
    cases n with
    | zero => simp
    | succ n =>
      rw [List.take_succ_cons, List.mem_cons, List.mem_cons]
      by_cases hex : e = x
      · subst hex
        have hnone : (e :: t).filter (fun f => decide (key f < key e)) = [] := by
          refine List.filter_eq_nil_iff.mpr fun f hf => ?_
          rcases List.mem_cons.mp hf with rfl | hf
          · simp
          · simpa using (hx f hf).le
        simp [hnone]
      · rw [ih ht, or_iff_right hex, or_iff_right hex]
        refine and_congr_right fun he => ?_
        rw [List.filter_cons_of_pos (by simpa using hx e he), List.length_cons, Nat.succ_lt_succ_iff]

/-- Beyond a proper prefix there is a further entry. -/
theorem Ordered.exists_beyond_take {t : List ε} (h : Ordered key t) {n : ℕ} (hn : n < t.length) :
    ∃ f ∈ t, ∀ e ∈ t.take n, key e < key f := by
  have hsplit : (t.take n ++ t.drop n).Pairwise fun a b => key a < key b := by
    rw [List.take_append_drop]; exact h
  have hmem : t[n] ∈ t.drop n := by
    rw [List.drop_eq_getElem_cons hn]; exact List.mem_cons_self
  exact ⟨t[n], List.getElem_mem hn, fun e he =>
    (List.pairwise_append.mp hsplit).2.2 e he _ hmem⟩

/-! ## 2. Growth

The entry with the last key is the one that may still change: in a table that is written as its
readings come in, the newest line is filled up before the next one begins. -/

/-- A table after it grew: its keys are still there, nothing was put in behind one of them, and
an entry with a later one did not change. -/
structure Grows (key : ε → κ) (t t' : List ε) : Prop where
  keys : ∀ e ∈ t, ∃ e' ∈ t', key e' = key e
  below : ∀ e' ∈ t', ∀ e ∈ t, key e' < key e → e' ∈ t
  settled : ∀ e ∈ t, ∀ f ∈ t, key e < key f → e ∈ t'

theorem Grows.refl (t : List ε) : Grows key t t :=
  ⟨fun e he => ⟨e, he, rfl⟩, fun _ he' _ _ _ => he', fun _ he _ _ _ => he⟩

/-- Growth between two pages may come in several steps. -/
theorem Grows.trans {t t' t'' : List ε} (h : Grows key t t') (h' : Grows key t' t'') :
    Grows key t t'' where
  keys e he := by
    obtain ⟨e', he', hk⟩ := h.keys e he
    obtain ⟨e'', he'', hk'⟩ := h'.keys e' he'
    exact ⟨e'', he'', hk'.trans hk⟩
  below e'' he'' e he hlt := by
    obtain ⟨e', he', hk⟩ := h.keys e he
    exact h.below e'' (h'.below e'' he'' e' he' (hk ▸ hlt)) e he hlt
  settled e he f hf hlt := by
    obtain ⟨f', hf', hk⟩ := h.keys f hf
    exact h'.settled e (h.settled e he f hf hlt) f' hf' (hk ▸ hlt)

/-- Growth is seen through any cut by keys. -/
theorem Grows.filter_le {t t' : List ε} (h : Grows key t t') (hi : κ → Bool) :
    Grows key (t.filter fun e => hi (key e)) (t'.filter fun e => hi (key e)) where
  keys e he := by
    obtain ⟨he, hhi⟩ := List.mem_filter.mp he
    obtain ⟨e', he', hk⟩ := h.keys e he
    exact ⟨e', List.mem_filter.mpr ⟨he', by rw [hk]; exact hhi⟩, hk⟩
  below e' he' e he hlt := by
    obtain ⟨he', hhi'⟩ := List.mem_filter.mp he'
    exact List.mem_filter.mpr ⟨h.below e' he' e (List.mem_filter.mp he).1 hlt, hhi'⟩
  settled e he f hf hlt := by
    obtain ⟨he, hhi⟩ := List.mem_filter.mp he
    exact List.mem_filter.mpr ⟨h.settled e he f (List.mem_filter.mp hf).1 hlt, hhi⟩

/-! ## 3. Coverage

The reader's side.  What has been collected must be *settled*, that is, lie before the last key of
the table, or a later page could bring the same entry with another content; a page that is cut off
guarantees just that, since there is a further entry behind the cut. -/

/-- What a reader holds after cut-off pages that ended at `c`: `got` is settled, and every
visible entry from `lo` to `c` is in it. -/
structure Covers (key : ε → κ) (vis : ε → Bool) (t : List ε) (lo c : WithBot κ) (got : List ε) :
    Prop where
  mem : ∀ e ∈ got, e ∈ t ∧ vis e = true ∧ ∃ f ∈ t, key e < key f
  cover : ∀ e ∈ t, vis e = true → lo ≤ (key e : WithBot κ) → (key e : WithBot κ) ≤ c → e ∈ got
  reached : ∀ k : κ, c = (k : WithBot κ) → ∃ e ∈ got, key e = k

section Covers

variable {vis : ε → Bool} {t t' got : List ε} {lo c s : WithBot κ}

/-- Before the first page nothing is covered and nothing is claimed. -/
theorem Covers.init (t : List ε) (lo : WithBot κ) : Covers key vis t lo ⊥ [] where
  mem := by simp
  cover e _ _ _ hle := absurd hle (by simp)
  reached k hk := absurd hk (by simp)

/-- **Coverage survives growth.** -/
theorem Covers.grow (h : Covers key vis t lo c got) (hg : Grows key t t') :
    Covers key vis t' lo c got where
  mem e he := by
    obtain ⟨het, hv, f, hf, hlt⟩ := h.mem e he
    obtain ⟨f', hf', hk⟩ := hg.keys f hf
    exact ⟨hg.settled e het f hf hlt, hv, f', hf', hk ▸ hlt⟩
  cover e he hv hlo hle := by
    cases c with
    | bot => exact absurd hle (by simp)
    | coe k =>
      obtain ⟨g, hgot, rfl⟩ := h.reached k rfl
      obtain ⟨-, -, f, hf, hlt⟩ := h.mem g hgot
      have hlt' : key e < key f := lt_of_le_of_lt (WithBot.coe_le_coe.mp hle) hlt
      exact h.cover e (hg.below e he f hf hlt') hv hlo hle
  reached := h.reached

/-- Where the next page may start: at the beginning first, later at or before the last key. -/
def Resumes (lo c s : WithBot κ) : Prop := (c = ⊥ → s = lo) ∧ (c ≠ ⊥ → s ≤ c)

/-- An uncollected entry lies in the next page's window. -/
theorem Covers.mem_window_of_not_le (hs : Resumes lo c s) {e : ε} (he : e ∈ t)
    (hlo : lo ≤ (key e : WithBot κ)) (hc : ¬(key e : WithBot κ) ≤ c) : e ∈ window key s t := by
  refine mem_window.mpr ⟨he, ?_⟩
  by_cases hbot : c = ⊥
  · rw [hs.1 hbot]; exact hlo
  · exact (hs.2 hbot).trans (le_of_not_ge hc)

/-- **A cut-off page extends the coverage to its last visible key.**

Whatever is visible and at or before that key is in the page, or was before its start and had been
collected.  The page being cut off is used once: an entry behind it shows that the collected ones
are settled. -/
theorem Covers.page (h : Covers key vis t lo c got) (ht : Ordered key t) (hs : Resumes lo c s)
    {n : ℕ} (hn : n < (window key s t).length) {k : κ}
    (hk : ∃ e ∈ (window key s t).take n, vis e = true ∧ key e = k) :
    Covers key vis t lo k (got ++ ((window key s t).take n).filter vis) where
  mem e he := by
    rcases List.mem_append.mp he with he | he
    · exact h.mem e he
    · obtain ⟨hep, hv⟩ := List.mem_filter.mp he
      obtain ⟨f, hf, hlt⟩ := (ht.window s).exists_beyond_take hn
      exact ⟨(mem_window.mp (List.mem_of_mem_take hep)).1, hv, f, (mem_window.mp hf).1, hlt e hep⟩
  cover e he hv hlo hle := by
    by_cases hc : (key e : WithBot κ) ≤ c
    · exact List.mem_append_left _ (h.cover e he hv hlo hc)
    · obtain ⟨g, hg, -, rfl⟩ := hk
      have hw := Covers.mem_window_of_not_le hs he hlo hc
      have htake := (ht.window s).mem_take_of_le hw hg (WithBot.coe_le_coe.mp hle)
      exact List.mem_append_right _ (List.mem_filter.mpr ⟨htake, hv⟩)
  reached k' hk' := by
    obtain ⟨g, hg, hv, rfl⟩ := hk
    exact ⟨g, List.mem_append_right _ (List.mem_filter.mpr ⟨hg, hv⟩), WithBot.coe_injective hk'⟩

/-- **After a page that was not cut off, every visible entry from `lo` on has been collected**, and
everything collected is a visible entry of the table.

A page that is not cut off has all that is left, so that nothing about the last key is needed any
more. -/
theorem Covers.complete (h : Covers key vis t lo c got) (hs : Resumes lo c s) :
    (∀ e ∈ t, vis e = true → lo ≤ (key e : WithBot κ) → e ∈ got ++ (window key s t).filter vis) ∧
      ∀ e ∈ got ++ (window key s t).filter vis, e ∈ t ∧ vis e = true := by
  constructor
  · intro e he hv hlo
    by_cases hc : (key e : WithBot κ) ≤ c
    · exact List.mem_append_left _ (h.cover e he hv hlo hc)
    · exact List.mem_append_right _
        (List.mem_filter.mpr ⟨Covers.mem_window_of_not_le hs he hlo hc, hv⟩)
  · intro e he
    rcases List.mem_append.mp he with he | he
    · exact ⟨(h.mem e he).1, (h.mem e he).2.1⟩
    · obtain ⟨hw, hv⟩ := List.mem_filter.mp he
      exact ⟨(mem_window.mp hw).1, hv⟩

end Covers

/-! ## 4. Exact stretches

Coverage is the right notion for loops that end by themselves.  For a loop that is stopped by a cap
on its pages it does not say how far one got, and for this the pages have to be counted. -/

/-- `got` is a gap-free initial stretch of the entries from `lo` on. -/
structure Initial (key : ε → κ) (t : List ε) (lo : WithBot κ) (got : List ε) : Prop where
  mem : ∀ g ∈ got, g ∈ t ∧ lo ≤ (key g : WithBot κ)
  closed : ∀ e ∈ t, lo ≤ (key e : WithBot κ) → ∀ g ∈ got, key e ≤ key g → e ∈ got

/-- In an ordered list, what is closed downwards is a prefix. -/
theorem Ordered.filter_eq_take {p : ε → Bool} : ∀ {t : List ε}, Ordered key t →
    (∀ e ∈ t, ∀ g ∈ t, key e ≤ key g → p g = true → p e = true) →
      t.filter p = t.take (t.filter p).length
  | [], _, _ => rfl
  | a :: t, h, hp => by
    obtain ⟨ha, ht⟩ := List.pairwise_cons.mp h
    have ih := Ordered.filter_eq_take ht fun e he g hg =>
      hp e (List.mem_cons_of_mem _ he) g (List.mem_cons_of_mem _ hg)
    by_cases hpa : p a = true
    · rw [List.filter_cons_of_pos hpa, List.length_cons, List.take_succ_cons, ← ih]
    · have hnil : t.filter p = [] := List.filter_eq_nil_iff.mpr fun g hg hpg =>
        hpa (hp a List.mem_cons_self g (List.mem_cons_of_mem _ hg) (ha g hg).le hpg)
      rw [List.filter_cons_of_neg hpa, hnil]
      rfl

/-- **A gap-free initial stretch is a prefix of the window.** -/
theorem Initial.exists_take {t got : List ε} {lo : WithBot κ} (h : Initial key t lo got)
    (ht : Ordered key t) :
    ∃ m ≤ (window key lo t).length, ∀ e, e ∈ got ↔ e ∈ (window key lo t).take m := by
  classical
  have hw : (window key lo t).filter (fun e => decide (e ∈ got)) =
      (window key lo t).take ((window key lo t).filter fun e => decide (e ∈ got)).length := by
    refine (ht.window lo).filter_eq_take fun e he g hg hle hgot => ?_
    obtain ⟨het, hlo⟩ := mem_window.mp he
    exact decide_eq_true (h.closed e het hlo g (of_decide_eq_true hgot) hle)
  refine ⟨((window key lo t).filter fun e => decide (e ∈ got)).length, List.length_filter_le _ _,
    fun e => ?_⟩
  rw [← hw, List.mem_filter, mem_window, decide_eq_true_eq]
  exact ⟨fun he => ⟨h.mem e he, he⟩, fun he => he.2⟩

/-- The entries between two positions. -/
def between (key : ε → κ) (lo c : WithBot κ) (t : List ε) : List ε :=
  t.filter fun e => decide (lo ≤ (key e : WithBot κ) ∧ (key e : WithBot κ) ≤ c)

/-- Coverage by exact pages: nothing beyond `c` has been collected, and `i` cut-off pages of
`n` entries have made a stretch of at least `i * (n - 1) + 1`. -/
structure Stretch (key : ε → κ) (t : List ε) (lo c : WithBot κ) (n i : ℕ) (got : List ε) :
    Prop where
  covers : Covers key (fun _ => true) t lo c got
  within : ∀ g ∈ got, lo ≤ (key g : WithBot κ) ∧ (key g : WithBot κ) ≤ c
  started : c = ⊥ ↔ i = 0
  count : i ≠ 0 → i * (n - 1) + 1 ≤ (between key lo c t).length

section Stretch

variable {t t' got : List ε} {lo c : WithBot κ} {n i : ℕ}

theorem Stretch.init (t : List ε) (lo : WithBot κ) (n : ℕ) : Stretch key t lo ⊥ n 0 [] where
  covers := Covers.init t lo
  within := by simp
  started := by simp
  count h := absurd rfl h

/-- The position an exact page starts at. -/
def exactStart (lo c : WithBot κ) : WithBot κ := if c = ⊥ then lo else c

theorem Stretch.resumes (_h : Stretch key t lo c n i got) : Resumes lo c (exactStart lo c) := by
  constructor
  · intro hc; simp [exactStart, hc]
  · intro hc; simp [exactStart, hc]

/-- A stretch loses no entries when the table grows. -/
theorem Stretch.grow (h : Stretch key t lo c n i got) (ht : Ordered key t)
    (hg : Grows key t t') : Stretch key t' lo c n i got where
  covers := h.covers.grow hg
  within := h.within
  started := h.started
  count hi := by
    refine (h.count hi).trans ?_
    refine ((ht.sublist List.filter_sublist).nodup.subperm fun e he => ?_).length_le
    obtain ⟨het, hbound⟩ := List.mem_filter.mp he
    have hle := (decide_eq_true_eq.mp hbound).2
    cases c with
    | bot => exact absurd hle (by simp)
    | coe k =>
      obtain ⟨g, hgot, rfl⟩ := h.covers.reached k rfl
      obtain ⟨-, -, f, hf, hlt⟩ := h.covers.mem g hgot
      have hsettled := hg.settled e het f hf (lt_of_le_of_lt (WithBot.coe_le_coe.mp hle) hlt)
      exact List.mem_filter.mpr ⟨hsettled, hbound⟩

/-- **An exact cut-off page of at least two entries ends strictly further than it started**, and
extends the stretch by at least one entry less than its size.

One entry is lost to the overlap: the page begins with the entry at which the last one ended.  With
pages of a single entry nothing would be gained, and the loop would stay where it is; hence `2 ≤
n`. -/
theorem Stretch.page (h : Stretch key t lo c n i got) (ht : Ordered key t) (hn2 : 2 ≤ n)
    (hn : n < (window key (exactStart lo c) t).length) {k : κ}
    (hk : ∃ e ∈ (window key (exactStart lo c) t).take n, key e = k)
    (hmax : ∀ e ∈ (window key (exactStart lo c) t).take n, key e ≤ k) :
    exactStart lo c < k ∧
      Stretch key t lo k n (i + 1) (got ++ (window key (exactStart lo c) t).take n) := by
  have hlo : lo ≤ exactStart lo c := by
    by_cases hc : c = ⊥
    · simp [exactStart, hc]
    · obtain ⟨k₀, rfl⟩ := WithBot.ne_bot_iff_exists.mp hc
      obtain ⟨g, hg, rfl⟩ := h.covers.reached k₀ rfl
      simpa [exactStart] using (h.within g hg).1
  have hw := (ht.window (exactStart lo c)).sublist
    (List.take_sublist n (window key (exactStart lo c) t))
  have hlen : ((window key (exactStart lo c) t).take n).length = n := by
    rw [List.length_take]; omega
  have hbounds : ∀ e ∈ (window key (exactStart lo c) t).take n,
      e ∈ t ∧ exactStart lo c ≤ (key e : WithBot κ) ∧ (key e : WithBot κ) ≤ k := fun e he =>
    ⟨(mem_window.mp (List.mem_of_mem_take he)).1, (mem_window.mp (List.mem_of_mem_take he)).2,
      WithBot.coe_le_coe.mpr (hmax e he)⟩
  have hpage := h.covers.page ht h.resumes hn (k := k) (by simpa using hk)
  rw [List.filter_eq_self.mpr fun _ _ => rfl] at hpage
  -- the page's first entry, and the rest of it
  obtain ⟨a, rest, hp⟩ : ∃ a rest, (window key (exactStart lo c) t).take n = a :: rest := by
    cases hp : (window key (exactStart lo c) t).take n with
    | nil => rw [hp] at hlen; simp at hlen; omega
    | cons a rest => exact ⟨a, rest, rfl⟩
  rw [hp] at hw hlen hbounds hpage ⊢
  obtain ⟨hfirst, hrest⟩ := List.pairwise_cons.mp hw
  have hrlen : rest.length = n - 1 := by simp only [List.length_cons] at hlen; omega
  have hadv : exactStart lo c < (k : WithBot κ) := by
    obtain ⟨b, hb⟩ : ∃ b, b ∈ rest := by
      cases rest with
      | nil => simp at hrlen; omega
      | cons b _ => exact ⟨b, List.mem_cons_self⟩
    calc exactStart lo c ≤ (key a : WithBot κ) := (hbounds a List.mem_cons_self).2.1
      _ < (key b : WithBot κ) := WithBot.coe_lt_coe.mpr (hfirst b hb)
      _ ≤ k := (hbounds b (List.mem_cons_of_mem _ hb)).2.2
  refine ⟨hadv, hpage, ?_, ?_, ?_⟩
  · intro g hg
    rcases List.mem_append.mp hg with hg | hg
    · refine ⟨(h.within g hg).1, (h.within g hg).2.trans ?_⟩
      by_cases hc : c = ⊥
      · simp [hc]
      · simp only [exactStart, hc, if_false] at hadv
        exact hadv.le
    · exact ⟨hlo.trans (hbounds g hg).2.1, (hbounds g hg).2.2⟩
  · simp
  · intro _
    have hin : ∀ e ∈ rest, e ∈ between key lo (k : WithBot κ) t := fun e he =>
      List.mem_filter.mpr ⟨(hbounds e (List.mem_cons_of_mem _ he)).1, decide_eq_true_eq.mpr
          ⟨hlo.trans (hbounds e (List.mem_cons_of_mem _ he)).2.1,
            (hbounds e (List.mem_cons_of_mem _ he)).2.2⟩⟩
    by_cases hc : c = ⊥
    · -- the first page: all of it is new
      have hsub : (a :: rest).Subperm (between key lo (k : WithBot κ) t) :=
        hw.nodup.subperm fun e he => List.mem_filter.mpr ⟨(hbounds e he).1, decide_eq_true_eq.mpr
          ⟨hlo.trans (hbounds e he).2.1, (hbounds e he).2.2⟩⟩
      have hi : i = 0 := h.started.mp hc
      have := hsub.length_le
      rw [hlen] at this
      subst hi
      omega
    · -- a later page: all but the entry it started at is new
      have hi : i ≠ 0 := fun hi => hc (h.started.mpr hi)
      have hstart : exactStart lo c = c := by simp [exactStart, hc]
      have hnodup : (between key lo c t ++ rest).Nodup := by
        refine List.nodup_append.mpr ⟨(ht.sublist List.filter_sublist).nodup, hrest.nodup, ?_⟩
        rintro x hx y hy rfl
        have hxc : (key x : WithBot κ) ≤ c := (decide_eq_true_eq.mp (List.mem_filter.mp hx).2).2
        have hcx : c < (key x : WithBot κ) := by
          rw [← hstart]
          exact lt_of_le_of_lt (hbounds a List.mem_cons_self).2.1
            (WithBot.coe_lt_coe.mpr (hfirst x hy))
        exact absurd hxc (not_le.mpr hcx)
      have hsub : (between key lo c t ++ rest).Subperm (between key lo (k : WithBot κ) t) := by
        refine hnodup.subperm fun e he => ?_
        rcases List.mem_append.mp he with he | he
        · obtain ⟨het, hb⟩ := List.mem_filter.mp he
          have hb := decide_eq_true_eq.mp hb
          rw [hstart] at hadv
          exact List.mem_filter.mpr ⟨het, decide_eq_true_eq.mpr ⟨hb.1, hb.2.trans hadv.le⟩⟩
        · exact hin e he
      have hle := hsub.length_le
      rw [List.length_append, hrlen] at hle
      have hcount := h.count hi
      calc (i + 1) * (n - 1) + 1 = i * (n - 1) + 1 + (n - 1) := by ring
        _ ≤ (between key lo (k : WithBot κ) t).length := by omega

/-- What a stretch holds is an initial part of the table from `lo` on. -/
theorem Stretch.initial (h : Stretch key t lo c n i got) : Initial key t lo got where
  mem g hg := ⟨(h.covers.mem g hg).1, (h.within g hg).1⟩
  closed e he hlo g hg hle := h.covers.cover e he rfl hlo
    ((WithBot.coe_le_coe.mpr hle).trans (h.within g hg).2)

/-- The prefix that a stretch makes up has at least as many entries as were counted. -/
theorem Stretch.count_le (h : Stretch key t lo c n i got) (ht : Ordered key t) (hi : i ≠ 0) {m : ℕ}
    (hm : ∀ e, e ∈ got ↔ e ∈ (window key lo t).take m) : i * (n - 1) + 1 ≤ m := by
  refine (h.count hi).trans ?_
  have hsub : (between key lo c t).Subperm ((window key lo t).take m) := by
    refine (ht.sublist List.filter_sublist).nodup.subperm fun e he => ?_
    obtain ⟨het, hb⟩ := List.mem_filter.mp he
    obtain ⟨hlo, hle⟩ := decide_eq_true_eq.mp hb
    exact (hm e).mp (h.covers.cover e het rfl hlo hle)
  exact hsub.length_le.trans (List.length_take_le _ _)

/-- **After a page that was not cut off, the stretch is the table from `lo` on.**  Here nothing is
left out, neither an invisible entry nor one behind a cap. -/
theorem Stretch.complete (h : Stretch key t lo c n i got) :
    ∀ e, e ∈ got ++ window key (exactStart lo c) t ↔ e ∈ window key lo t := by
  obtain ⟨hall, hmem⟩ := h.covers.complete h.resumes
  rw [List.filter_eq_self.mpr fun _ _ => rfl] at hall hmem
  intro e
  constructor
  · intro he
    refine mem_window.mpr ⟨(hmem e he).1, ?_⟩
    rcases List.mem_append.mp he with he | he
    · exact (h.within e he).1
    · by_cases hc : c = ⊥
      · simpa [exactStart, hc] using (mem_window.mp he).2
      · obtain ⟨k₀, rfl⟩ := WithBot.ne_bot_iff_exists.mp hc
        obtain ⟨g, hg, rfl⟩ := h.covers.reached k₀ rfl
        have hstart : exactStart lo ((key g : κ) : WithBot κ) = key g := by simp [exactStart]
        rw [hstart] at he
        exact (h.within g hg).1.trans (mem_window.mp he).2
  · intro he
    exact hall e (mem_window.mp he).1 rfl (mem_window.mp he).2

end Stretch

end GrowingTable
