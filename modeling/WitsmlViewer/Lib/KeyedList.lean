/-
# Lists as finite maps

A list whose elements carry keys, no two the same, is a finite map.  `Represents key make l m`
says so: under a key `k` the list holds `make b` when the map has `b` there, and nothing when it
has nothing.

`Represents.insert`, `Represents.erase` and `Represents.modify` are the changes;
`Represents.filter_eq` is the query for one key.

The values of the map need not be the elements themselves: `make` builds the one from the other.
Where a change is made to the elements, it is the identity.
-/
import Mathlib

namespace KeyedList

variable {α β κ : Type*} [DecidableEq κ] {key : α → κ} {make : β → α}

/-- The list `l` holds what the map `m` does, made into elements by `make`. -/
structure Represents (key : α → κ) (make : β → α) (l : List α) (m : κ → Option β) : Prop where
  distinct : (l.map key).Nodup
  lookup : ∀ k, (l.find? fun a => decide (key a = k)) = (m k).map make

namespace Represents

variable {l : List α} {m : κ → Option β}

theorem empty : Represents key make [] fun _ => none := ⟨List.nodup_nil, fun _ => rfl⟩

/-- An element's key is taken. -/
theorem isSome_of_mem (h : Represents key make l m) {a : α} (ha : a ∈ l) :
    (m (key a)).isSome = true := by
  have hfind : (l.find? fun b => decide (key b = key a)).isSome = true :=
    List.find?_isSome.mpr ⟨a, ha, decide_eq_true rfl⟩
  rw [h.lookup] at hfind
  simpa using hfind

/-- A free key is no element's. -/
theorem key_ne (h : Represents key make l m) {k : κ} (hk : m k = none) {a : α} (ha : a ∈ l) :
    key a ≠ k := by
  rintro rfl
  have hsome := h.isSome_of_mem ha
  rw [hk] at hsome
  exact absurd hsome (by simp)

/-- A taken key is that of its element. -/
theorem exists_mem (h : Represents key make l m) {k : κ} {b : β} (hk : m k = some b) :
    make b ∈ l ∧ key (make b) = k := by
  have hfind := h.lookup k
  rw [hk, Option.map_some] at hfind
  exact ⟨List.mem_of_find?_eq_some hfind, by simpa using List.find?_some hfind⟩

/-- A search by key asks whether the key is taken. -/
theorem any_iff (h : Represents key make l m) (k : κ) :
    (∃ a ∈ l, key a = k) ↔ (m k).isSome = true := by
  constructor
  · rintro ⟨a, ha, rfl⟩
    exact h.isSome_of_mem ha
  · intro hk
    obtain ⟨b, hb⟩ := Option.isSome_iff_exists.mp hk
    exact ⟨make b, h.exists_mem hb⟩

/-- The map has each element under its key. -/
theorem get_of_mem {m : κ → Option α} (h : Represents key id l m) {a : α} (ha : a ∈ l) :
    m (key a) = some a := by
  obtain ⟨b, hb⟩ := Option.isSome_iff_exists.mp (h.isSome_of_mem ha)
  obtain ⟨hmem, hkey⟩ := h.exists_mem hb
  rw [hb, List.inj_on_of_nodup_map h.distinct ha hmem hkey.symm]
  rfl

/-- **A new element under a free key.**  It goes to the end of the list, where a table grows. -/
theorem insert (h : Represents key make l m) {b : β} {k : κ} (hkey : key (make b) = k)
    (hk : m k = none) :
    Represents key make (l ++ [make b]) (Function.update m k (some b)) := by
  constructor
  · rw [List.map_append]
    refine List.nodup_append.mpr ⟨h.distinct, List.nodup_singleton _, ?_⟩
    intro k₁ hk₁ k₂ hk₂ heq
    obtain ⟨a, ha, rfl⟩ := List.mem_map.mp hk₁
    rw [List.map_singleton, List.mem_singleton, hkey] at hk₂
    exact h.key_ne hk ha (heq.trans hk₂)
  · intro k'
    rw [List.find?_append, h.lookup]
    by_cases hkk : k' = k
    · subst hkk
      simp [hk, hkey]
    · have hne : ¬key (make b) = k' := fun heq => hkk (heq.symm.trans hkey)
      simp [Function.update_of_ne hkk, hne]

/-- **All elements of one key removed.**  There is at most one, so a filter and a removal come to
the same. -/
theorem erase (h : Represents key make l m) (k : κ) :
    Represents key make (l.filter fun a => decide (key a ≠ k)) (Function.update m k none) := by
  constructor
  · exact h.distinct.sublist (List.filter_sublist.map key)
  · intro k'
    rw [List.find?_filter]
    by_cases hkk : k' = k
    · subst hkk
      rw [Function.update_self, Option.map_none, List.find?_eq_none]
      intro a _
      simp
    · rw [Function.update_of_ne hkk, ← h.lookup]
      congr 1
      funext a
      by_cases ha : key a = k'
      · simp [ha, hkk]
      · simp [ha]

/-- **The element of one key changed**, without its key.

A change that went for the key would make two elements of one key possible, and the list would no
longer be a map. -/
theorem modify {m : κ → Option α} (h : Represents key id l m) (k : κ) {f : α → α}
    (hf : ∀ a, key (f a) = key a) :
    Represents key id (l.map fun a => if key a = k then f a else a)
      (Function.update m k ((m k).map f)) := by
  have hkey : ∀ a, key (if key a = k then f a else a) = key a := fun a => by
    split
    · exact hf a
    · rfl
  constructor
  · rw [List.map_map, show key ∘ (fun a => if key a = k then f a else a) = key from funext hkey]
    exact h.distinct
  · intro k'
    have hlook := h.lookup k'
    rw [Option.map_id_fun, id_eq] at hlook ⊢
    rw [List.find?_map]
    simp only [Function.comp_def, hkey, hlook]
    by_cases hkk : k' = k
    · subst hkk
      rw [Function.update_self]
      refine Option.map_congr fun a ha => ?_
      rw [if_pos (by simpa using List.find?_some (hlook.trans ha))]
    · rw [Function.update_of_ne hkk]
      cases hm : m k' with
      | none => rfl
      | some a =>
        have hka : key a = k' := by simpa using List.find?_some (hlook.trans hm)
        rw [Option.map_some, if_neg (hka ▸ hkk)]

/-- **The query for one key finds its element alone.**  The filter goes through the whole list;
that it ends with one element or none is where the keys being distinct is used. -/
theorem filter_eq (h : Represents key make l m) (k : κ) :
    (l.filter fun a => decide (key a = k)) = ((m k).map make).toList := by
  rw [← h.lookup]
  have hdist := h.distinct
  clear h
  induction l with
  | nil => rfl
  | cons a l ih =>
    rw [List.map_cons, List.nodup_cons] at hdist
    rw [List.filter_cons, List.find?_cons]
    by_cases ha : key a = k
    · -- no other element has this key
      have hrest : (l.filter fun b => decide (key b = k)) = [] := by
        refine List.filter_eq_nil_iff.mpr fun b hb hbk => hdist.1 ?_
        rw [decide_eq_true_eq] at hbk
        exact List.mem_map.mpr ⟨b, hb, hbk.trans ha.symm⟩
      simp [ha, hrest]
    · simp [ha, ih hdist.2]

end Represents

end KeyedList
