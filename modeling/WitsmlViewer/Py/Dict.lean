/-
# Python `dict`

A dictionary as its entries in insertion order.  Keys are compared with `==`, so a key that does
not equal itself (`nan`) is appended every time and found never, as in Python when each `nan` is a
fresh object.

Membership after `set` is described by `mem_of_mem_set`, `mem_set_self` and `mem_set_of_ne`,
look-up by `get?_set`.  The former assume only that `==` implies equality, which is true of floats
with `nan` among them; the latter needs that every key equals itself.

Insertion order is kept because Python keeps it, and the program shows it: rows that were merged in
a dictionary come out in that order before they are sorted, and equal keys are sorted stably.
-/
import Mathlib

namespace Py

/-- A Python `dict`, oldest entry first. -/
abbrev Dict (κ α : Type) := List (κ × α)

namespace Dict

variable {κ α : Type} [BEq κ]

/-- `d.get(k)`. -/
def get? : Dict κ α → κ → Option α
  | [], _ => none
  | (k', v) :: d, k => if k' == k then some v else get? d k

/-- `d[k] = v`: an old key keeps its place, a new one goes to the end. -/
def set : Dict κ α → κ → α → Dict κ α
  | [], k, v => [(k, v)]
  | (k', v') :: d, k, v => if k' == k then (k', v) :: d else (k', v') :: set d k v

/-- No two entries have equal keys. -/
def Distinct (d : Dict κ α) : Prop := d.Pairwise fun a b => (a.1 == b.1) = false

/-! ## 1. `set` and membership

An assignment replaces an entry in its place or appends one.  What is asked of it below is only
which entries are there, so the place appears in `keys_set` and nowhere else. -/

/-- An entry after `set` is the new one or an old one under another key. -/
theorem mem_of_mem_set (hbeq : ∀ a b : κ, (a == b) = true → a = b) {k : κ} {v : α} :
    ∀ {d : Dict κ α} {e : κ × α}, Distinct d → e ∈ set d k v →
      e = (k, v) ∨ e ∈ d ∧ (e.1 == k) = false
  | [], e, _, he => Or.inl (List.mem_singleton.mp he)
  | (k', v') :: d, e, hd, he => by
    obtain ⟨hhead, htail⟩ := List.pairwise_cons.mp hd
    by_cases hk : (k' == k) = true
    · obtain rfl := hbeq k' k hk
      simp only [set, hk, if_true] at he
      rcases List.mem_cons.mp he with rfl | he
      · exact Or.inl rfl
      · refine Or.inr ⟨List.mem_cons_of_mem _ he, ?_⟩
        by_contra heq
        have hek : e.1 = k' := hbeq e.1 k' (by simpa using heq)
        have hne := hhead e he
        rw [hek] at hne
        exact absurd hk (by simp [hne])
    · simp only [set, hk, if_false, Bool.false_eq_true] at he
      rcases List.mem_cons.mp he with rfl | he
      · exact Or.inr ⟨List.mem_cons_self, by simpa using hk⟩
      · rcases mem_of_mem_set hbeq htail he with h | ⟨h, h'⟩
        · exact Or.inl h
        · exact Or.inr ⟨List.mem_cons_of_mem _ h, h'⟩

/-- The new entry is there. -/
theorem mem_set_self (hbeq : ∀ a b : κ, (a == b) = true → a = b) (k : κ) (v : α) :
    ∀ d : Dict κ α, (k, v) ∈ set d k v
  | [] => List.mem_singleton.mpr rfl
  | (k', v') :: d => by
    by_cases hk : (k' == k) = true
    · obtain rfl := hbeq k' k hk
      simp [set, hk]
    · simp only [set, hk, if_false, Bool.false_eq_true]
      exact List.mem_cons_of_mem _ (mem_set_self hbeq k v d)

/-- Entries under other keys stay. -/
theorem mem_set_of_ne {k : κ} {v : α} :
    ∀ {d : Dict κ α} {e : κ × α}, e ∈ d → (e.1 == k) = false → e ∈ set d k v
  | (k', v') :: d, e, he, hne => by
    by_cases hk : (k' == k) = true
    · simp only [set, hk, if_true]
      rcases List.mem_cons.mp he with rfl | he
      · simp [hk] at hne
      · exact List.mem_cons_of_mem _ he
    · simp only [set, hk, if_false, Bool.false_eq_true]
      rcases List.mem_cons.mp he with rfl | he
      · exact List.mem_cons_self
      · exact List.mem_cons_of_mem _ (mem_set_of_ne he hne)

/-- The keys after `set`: the old ones, and the new one if no old one equals it. -/
theorem keys_set (k : κ) (v : α) : ∀ d : Dict κ α,
    (set d k v).map Prod.fst =
      d.map Prod.fst ++ (if d.any (fun e => e.1 == k) then [] else [k])
  | [] => rfl
  | (k', v') :: d => by
    by_cases hk : (k' == k) = true
    · simp [set, hk]
    · have hk' : (k' == k) = false := by simpa using hk
      have hany : List.any ((k', v') :: d) (fun e => e.1 == k) =
          List.any d (fun e => e.1 == k) := by
        rw [List.any_cons, hk', Bool.false_or]
      rw [hany]
      simp only [set, hk', Bool.false_eq_true, if_false, List.map_cons, List.cons_append,
        keys_set k v d]

theorem distinct_set {k : κ} {v : α} {d : Dict κ α} (hd : Distinct d) :
    Distinct (set d k v) := by
  have hkeys : ∀ d : Dict κ α, Distinct d ↔
      (d.map Prod.fst).Pairwise fun a b => (a == b) = false := fun d => by
    rw [List.pairwise_map]; rfl
  rw [hkeys] at hd ⊢
  rw [keys_set]
  split
  · simpa using hd
  · rename_i hk
    refine List.pairwise_append.mpr ⟨hd, List.pairwise_singleton _ _, ?_⟩
    intro a ha b hb
    obtain ⟨e, he, rfl⟩ := List.mem_map.mp ha
    rw [List.mem_singleton.mp hb]
    simp only [List.any_eq_true, not_exists, not_and] at hk
    simpa using hk e he

theorem distinct_nil : Distinct ([] : Dict κ α) := List.Pairwise.nil

/-! ## 2. `get?`

A look-up goes through the entries from the oldest on, but finds at most one where the keys are
distinct. -/

theorem get?_mem (hbeq : ∀ a b : κ, (a == b) = true → a = b) {k : κ} {v : α} :
    ∀ {d : Dict κ α}, get? d k = some v → (k, v) ∈ d
  | (k', v') :: d, h => by
    by_cases hk : (k' == k) = true
    · simp only [get?, hk, if_true, Option.some.injEq] at h
      rw [← hbeq k' k hk, ← h]
      exact List.mem_cons_self
    · simp only [get?, hk, if_false, Bool.false_eq_true] at h
      exact List.mem_cons_of_mem _ (get?_mem hbeq h)

/-- Look-up after a change of the values. -/
theorem get?_map {β : Type} (f : α → β) (k : κ) : ∀ d : Dict κ α,
    get? (d.map fun e => (e.1, f e.2)) k = (get? d k).map f
  | [] => rfl
  | (k', v) :: d => by
    by_cases hk : (k' == k) = true
    · simp [get?, hk]
    · simp [get?, hk, get?_map f k d]

/-- An entry is found under its key, if the key equals itself. -/
theorem get?_of_mem (hbeq : ∀ a b : κ, (a == b) = true → a = b) {k : κ} {v : α}
    (hrefl : (k == k) = true) : ∀ {d : Dict κ α}, Distinct d → (k, v) ∈ d → get? d k = some v
  | (k', v') :: d, hd, hmem => by
    obtain ⟨hhead, htail⟩ := List.pairwise_cons.mp hd
    by_cases hk : (k' == k) = true
    · simp only [get?, hk, if_true]
      rcases List.mem_cons.mp hmem with heq | hmem
      · rw [(Prod.mk.inj heq).2]
      · have hne := hhead _ hmem
        rw [hk] at hne
        exact absurd hne (by simp)
    · simp only [get?, hk, if_false, Bool.false_eq_true]
      rcases List.mem_cons.mp hmem with heq | hmem
      · rw [(Prod.mk.inj heq).1] at hrefl
        exact absurd hrefl (by rw [← (Prod.mk.inj heq).1] at hk ⊢; exact hk)
      · exact get?_of_mem hbeq hrefl htail hmem

variable [LawfulBEq κ]

@[simp] theorem get?_set_self (k : κ) (v : α) : ∀ d : Dict κ α, get? (set d k v) k = some v
  | [] => by simp [set, get?]
  | (k', v') :: d => by
    by_cases hk : (k' == k) = true
    · simp [set, hk, get?]
    · simp [set, hk, get?, get?_set_self k v d]

/-- A write under one key does not change what is read under another. -/
theorem get?_set_of_ne {k k' : κ} (hne : k ≠ k') (v : α) :
    ∀ d : Dict κ α, get? (set d k v) k' = get? d k'
  | [] => by simp [set, get?, hne]
  | (k₀, v₀) :: d => by
    by_cases hk : (k₀ == k) = true
    · have : k₀ = k := eq_of_beq hk
      subst this
      simp [set, get?, hne]
    · by_cases hk' : (k₀ == k') = true
      · simp [set, hk, get?, hk']
      · simp [set, hk, get?, hk', get?_set_of_ne hne v d]

/-- **Look-up after `set`.**  The two cases in one equation, for rewriting. -/
theorem get?_set [DecidableEq κ] (k k' : κ) (v : α) (d : Dict κ α) :
    get? (set d k v) k' = if k = k' then some v else get? d k' := by
  split
  · rename_i h
    subst h
    exact get?_set_self k v d
  · rename_i h
    exact get?_set_of_ne h v d

/-- A dictionary filled with distinct keys is looked up like the list that it was filled with. -/
theorem get?_foldl_set [DecidableEq κ] {k : κ} : ∀ {l d : Dict κ α}, (l.map Prod.fst).Nodup →
    get? (l.foldl (fun d e => set d e.1 e.2) d) k = (get? l k).or (get? d k)
  | [], d, _ => rfl
  | (k', v) :: l, d, h => by
    obtain ⟨hk, hl⟩ := List.nodup_cons.mp h
    rw [List.foldl_cons, get?_foldl_set hl, get?_set]
    by_cases heq : k' = k
    · subst heq
      have hnone : get? l k' = none := by
        cases hget : get? l k' with
        | none => rfl
        | some w => exact absurd (List.mem_map_of_mem (get?_mem (fun _ _ => eq_of_beq) hget)) hk
      simp [get?, hnone]
    · simp [get?, heq]

end Dict

end Py
