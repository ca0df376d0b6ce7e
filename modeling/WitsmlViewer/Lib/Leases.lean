/-
# Leases

A registry keeps a set of tokens under each key.  Every holder has at most one lease, a key and a
token registered under it, and remembers all tokens that it ever got.  Tokens are numbers, and a
fresh one is the number of tokens given out so far.

`Balanced` says that the registry and the holders agree: a token is registered under a key exactly
if it is leased there, and no two holders ever got the same one.  Acquiring and releasing a lease
keep it (`Balanced.acquire`, `Balanced.release`), and it makes the size of each registered set the
number of leases under its key (`Balanced.card_eq`).

The memory of old tokens is part of the holders because a holder that lets go may still be named by
its old token elsewhere.  A fresh token is new to everybody, so an old name never comes to mean a
new lease.
-/
import Mathlib

namespace Leases

/-- At most one lease, and all tokens that were ever given to this holder. -/
structure Holder (κ : Type*) where
  lease : Option (κ × ℕ) := none
  got : List ℕ := []

variable {κ : Type*}

/-- The registry `reg` and the holders `hs` agree, and fresh tokens start at `fresh`. -/
structure Balanced (reg : κ → Finset ℕ) (hs : List (Holder κ)) (fresh : ℕ) : Prop where
  matched : ∀ k t, t ∈ reg k ↔ ∃ (i : ℕ) (h : Holder κ), hs[i]? = some h ∧ h.lease = some (k, t)
  kept : ∀ (i : ℕ) (h : Holder κ) k t, hs[i]? = some h → h.lease = some (k, t) → t ∈ h.got
  apart : ∀ (i j : ℕ) (h h' : Holder κ) t, hs[i]? = some h → hs[j]? = some h' → t ∈ h.got →
    t ∈ h'.got → i = j
  old : ∀ (i : ℕ) (h : Holder κ) t, hs[i]? = some h → t ∈ h.got → t < fresh

theorem set_eq_self {α : Type*} {l : List α} {i : ℕ} {a : α} (h : l[i]? = some a) :
    l.set i a = l := by
  obtain ⟨hi, rfl⟩ := List.getElem?_eq_some_iff.mp h
  exact List.set_getElem_self hi

/-- What is at a place of a list after one of its elements was replaced. -/
theorem getElem?_set_some {α : Type*} {l : List α} {i j : ℕ} {a b : α}
    (h : (l.set i a)[j]? = some b) : (i = j ∧ a = b) ∨ (i ≠ j ∧ l[j]? = some b) := by
  rw [List.getElem?_set] at h
  split at h
  · rename_i hij
    split at h
    · exact Or.inl ⟨hij, Option.some.inj h⟩
    · simp at h
  · rename_i hij
    exact Or.inr ⟨hij, h⟩

namespace Balanced

variable {reg : κ → Finset ℕ} {hs : List (Holder κ)} {fresh : ℕ}

theorem empty : Balanced (fun _ : κ => ∅) [] 0 := by
  constructor <;> simp

/-- A new holder has no lease, and the registry does not notice it. -/
theorem join (hb : Balanced reg hs fresh) : Balanced reg (hs ++ [({} : Holder κ)]) fresh := by
  have hold : ∀ {i : ℕ} {h : Holder κ}, (hs ++ [({} : Holder κ)])[i]? = some h →
      hs[i]? = some h ∨ h = ({} : Holder κ) := by
    intro i h hi
    rw [List.getElem?_append] at hi
    split at hi
    · exact Or.inl hi
    · exact Or.inr (List.mem_singleton.mp (List.mem_of_getElem? hi))
  have hnew : ∀ {i : ℕ} {h : Holder κ}, hs[i]? = some h → (hs ++ [({} : Holder κ)])[i]? = some h := by
    intro i h hi
    rw [List.getElem?_append_left (List.getElem?_eq_some_iff.mp hi).1]
    exact hi
  constructor
  · intro k t
    rw [hb.matched]
    constructor
    · rintro ⟨i, h, hi, hl⟩
      exact ⟨i, h, hnew hi, hl⟩
    · rintro ⟨i, h, hi, hl⟩
      rcases hold hi with hi | rfl
      · exact ⟨i, h, hi, hl⟩
      · simp at hl
  · intro i h k t hi hl
    rcases hold hi with hi | rfl
    · exact hb.kept i h k t hi hl
    · simp at hl
  · intro i j h h' t hi hj ht ht'
    rcases hold hi with hi | rfl
    · rcases hold hj with hj | rfl
      · exact hb.apart i j h h' t hi hj ht ht'
      · simp at ht'
    · simp at ht
  · intro i h t hi ht
    rcases hold hi with hi | rfl
    · exact hb.old i h t hi ht
    · simp at ht

variable [DecidableEq κ]

/-- A lease is given up: its token leaves the registry.  No other holder ever got this token, so no
other lease goes with it. -/
theorem release (hb : Balanced reg hs fresh) {i : ℕ} {h : Holder κ} {k : κ} {t : ℕ}
    (hi : hs[i]? = some h) (hl : h.lease = some (k, t)) :
    Balanced (fun k' => if k = k' then (reg k').erase t else reg k')
      (hs.set i { h with lease := none }) fresh := by
  have hother : ∀ {j : ℕ} {h' : Holder κ}, i ≠ j → hs[j]? = some h' →
      (hs.set i { h with lease := none })[j]? = some h' := by
    intro j h' hij hj
    rw [List.getElem?_set_ne hij]
    exact hj
  constructor
  · intro k' t'
    constructor
    · intro hmem
      obtain ⟨hne, hreg⟩ : ¬(k = k' ∧ t = t') ∧ t' ∈ reg k' := by
        split at hmem
        · obtain ⟨hne, hreg⟩ := Finset.mem_erase.mp hmem
          exact ⟨fun h => hne h.2.symm, hreg⟩
        · rename_i hk
          exact ⟨fun h => hk h.1, hmem⟩
      obtain ⟨j, h', hj, hl'⟩ := (hb.matched k' t').mp hreg
      have hij : i ≠ j := by
        rintro rfl
        obtain rfl := Option.some.inj (hi.symm.trans hj)
        obtain ⟨rfl, rfl⟩ := Prod.mk.inj (Option.some.inj (hl.symm.trans hl'))
        exact hne ⟨rfl, rfl⟩
      exact ⟨j, h', hother hij hj, hl'⟩
    · rintro ⟨j, h', hj, hl'⟩
      rcases getElem?_set_some hj with ⟨-, rfl⟩ | ⟨hij, hj⟩
      · simp at hl'
      · have hreg : t' ∈ reg k' := (hb.matched k' t').mpr ⟨j, h', hj, hl'⟩
        split
        · -- another holder's token is another token
          refine Finset.mem_erase.mpr ⟨?_, hreg⟩
          rintro rfl
          exact hij (hb.apart i j h h' t' hi hj (hb.kept i h k t' hi hl)
            (hb.kept j h' k' t' hj hl'))
        · exact hreg
  · intro j h' k' t' hj hl'
    rcases getElem?_set_some hj with ⟨-, rfl⟩ | ⟨-, hj⟩
    · simp at hl'
    · exact hb.kept j h' k' t' hj hl'
  · intro j j' h₁ h₂ t' hj hj' ht ht'
    rcases getElem?_set_some hj with ⟨rfl, rfl⟩ | ⟨-, hj⟩
    · rcases getElem?_set_some hj' with ⟨rfl, -⟩ | ⟨-, hj'⟩
      · rfl
      · exact hb.apart i j' h h₂ t' hi hj' ht ht'
    · rcases getElem?_set_some hj' with ⟨rfl, rfl⟩ | ⟨-, hj'⟩
      · exact hb.apart j i h₁ h t' hj hi ht ht'
      · exact hb.apart j j' h₁ h₂ t' hj hj' ht ht'
  · intro j h' t' hj ht
    rcases getElem?_set_some hj with ⟨-, rfl⟩ | ⟨-, hj⟩
    · exact hb.old i h t' hi ht
    · exact hb.old j h' t' hj ht

/-- A holder without a lease gets one, with a fresh token.

Fresh means not below the count, and all tokens given out are below it; the registry's set under
the key therefore really grows, and no set has the token yet. -/
theorem acquire (hb : Balanced reg hs fresh) {i : ℕ} {h : Holder κ} (k : κ)
    (hi : hs[i]? = some h) (hl : h.lease = none) :
    Balanced (fun k' => if k = k' then insert fresh (reg k') else reg k')
      (hs.set i ⟨some (k, fresh), h.got ++ [fresh]⟩) (fresh + 1) := by
  have hself : (hs.set i ⟨some (k, fresh), h.got ++ [fresh]⟩)[i]? =
      some ⟨some (k, fresh), h.got ++ [fresh]⟩ := by
    rw [List.getElem?_set_self (List.getElem?_eq_some_iff.mp hi).1]
  -- the fresh token is nobody else's
  have hfresh : ∀ {j : ℕ} {h' : Holder κ}, hs[j]? = some h' → fresh ∉ h'.got := fun hj hmem =>
    absurd (hb.old _ _ _ hj hmem) (lt_irrefl _)
  constructor
  · intro k' t'
    constructor
    · intro hmem
      by_cases hnew : k = k' ∧ t' = fresh
      · obtain ⟨rfl, rfl⟩ := hnew
        exact ⟨i, _, hself, rfl⟩
      · have hreg : t' ∈ reg k' := by
          split at hmem
          · rename_i hk
            rcases Finset.mem_insert.mp hmem with ht | hreg
            · exact absurd ⟨hk, ht⟩ hnew
            · exact hreg
          · exact hmem
        obtain ⟨j, h', hj, hl'⟩ := (hb.matched k' t').mp hreg
        have hij : i ≠ j := by
          rintro rfl
          obtain rfl := Option.some.inj (hi.symm.trans hj)
          simp [hl] at hl'
        exact ⟨j, h', by rw [List.getElem?_set_ne hij]; exact hj, hl'⟩
    · rintro ⟨j, h', hj, hl'⟩
      rcases getElem?_set_some hj with ⟨-, rfl⟩ | ⟨-, hj⟩
      · obtain ⟨rfl, rfl⟩ := Prod.mk.inj (Option.some.inj hl')
        simp
      · have hreg : t' ∈ reg k' := (hb.matched k' t').mpr ⟨j, h', hj, hl'⟩
        split
        · exact Finset.mem_insert_of_mem hreg
        · exact hreg
  · intro j h' k' t' hj hl'
    rcases getElem?_set_some hj with ⟨-, rfl⟩ | ⟨-, hj⟩
    · obtain ⟨-, rfl⟩ := Prod.mk.inj (Option.some.inj hl')
      simp
    · exact hb.kept j h' k' t' hj hl'
  · intro j j' h₁ h₂ t' hj hj' ht ht'
    rcases getElem?_set_some hj with ⟨rfl, rfl⟩ | ⟨-, hj⟩
    · rcases getElem?_set_some hj' with ⟨rfl, -⟩ | ⟨-, hj'⟩
      · rfl
      · rcases List.mem_append.mp ht with ht | ht
        · exact hb.apart i j' h h₂ t' hi hj' ht ht'
        · rw [List.mem_singleton.mp ht] at ht'
          exact absurd ht' (hfresh hj')
    · rcases getElem?_set_some hj' with ⟨rfl, rfl⟩ | ⟨-, hj'⟩
      · rcases List.mem_append.mp ht' with ht' | ht'
        · exact hb.apart j i h₁ h t' hj hi ht ht'
        · rw [List.mem_singleton.mp ht'] at ht
          exact absurd ht (hfresh hj)
      · exact hb.apart j j' h₁ h₂ t' hj hj' ht ht'
  · intro j h' t' hj ht
    rcases getElem?_set_some hj with ⟨-, rfl⟩ | ⟨-, hj⟩
    · rcases List.mem_append.mp ht with ht | ht
      · exact (hb.old i h t' hi ht).trans (Nat.lt_succ_self _)
      · rw [List.mem_singleton.mp ht]
        exact Nat.lt_succ_self _
    · exact (hb.old j h' t' hj ht).trans (Nat.lt_succ_self _)

/-- **A registered set has as many tokens as there are leases under its key.**

This is what a reference count is for.  The tokens of the leases under the key are the set, and
they are distinct because no two holders ever got the same one. -/
theorem card_eq (hb : Balanced reg hs fresh) (k : κ) :
    (reg k).card = hs.countP fun h => h.lease.any (·.1 = k) := by
  let token : Holder κ → Option ℕ := fun h => (h.lease.filter (·.1 = k)).map Prod.snd
  have htoken : ∀ {h t}, token h = some t ↔ h.lease = some (k, t) := by
    intro h t
    cases hl : h.lease with
    | none => simp [token, hl]
    | some e => simp [token, hl, Option.filter_eq_some_iff, Prod.ext_iff]
  have hnodup : (hs.filterMap token).Nodup := by
    refine List.pairwise_filterMap.mpr (List.pairwise_iff_getElem.mpr ?_)
    rintro i j hi hj hlt t ht t' ht' rfl
    have hi' := List.getElem?_eq_getElem hi
    have hj' := List.getElem?_eq_getElem hj
    have hij := hb.apart i j _ _ t hi' hj' (hb.kept i _ k t hi' (htoken.mp ht))
      (hb.kept j _ k t hj' (htoken.mp ht'))
    omega
  have hset : reg k = (hs.filterMap token).toFinset := by
    ext t
    rw [List.mem_toFinset, List.mem_filterMap, hb.matched]
    constructor
    · rintro ⟨i, h, hi, hl⟩
      exact ⟨h, List.mem_of_getElem? hi, htoken.mpr hl⟩
    · rintro ⟨h, hmem, ht⟩
      obtain ⟨i, hi⟩ := List.getElem?_of_mem hmem
      exact ⟨i, h, hi, htoken.mp ht⟩
  rw [hset, List.toFinset_card_of_nodup hnodup, List.length_filterMap_eq_countP]
  refine List.countP_congr fun h _ => ?_
  cases hl : h.lease with
  | none => simp [token, hl]
  | some e => simp [token, hl, Option.filter]

end Balanced

end Leases
