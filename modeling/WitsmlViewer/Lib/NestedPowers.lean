/-
# Nested powers

Trees with nodes that are powers: such a node has an exponent, given by its absolute value.  A
`Chain` is a list of exponents of powers, each inside the one before.  The degree of a tree is the
largest product that a chain makes, found in one pass (`IsDegree`).

* `IsDegree.chains_le_iff`: a bound on the degree is a bound on all chains;
* `Grows.bitLength_le`: where numbers are computed by sums, products and powers, a bound on the
  degree makes the bit length of every number linear in the weight of its tree.

The one pass takes the largest product and not the sum of the exponents, because nested powers
multiply: raised to the tenth and then to the tenth again, a number has a hundred times the digits.
 To bound each exponent by itself is not enough for such chains; to bound the degree bounds all of
them at once.
-/
import Mathlib

namespace NestedPowers

/-! ## 1. Bit lengths

Sums may add a digit, products add the digits up, and a power multiplies them.  Only the last can
get out of hand, and only with the exponents. -/

/-- The number of binary digits of an absolute value. -/
def bitLength (n : ℤ) : ℕ := n.natAbs.size

/-- A number has at most `k` digits if it is below `2 ^ k`. -/
theorem bitLength_le_iff {n : ℤ} {k : ℕ} : bitLength n ≤ k ↔ n.natAbs < 2 ^ k := Nat.size_le

theorem bitLength_mono {m n : ℤ} (h : m.natAbs ≤ n.natAbs) : bitLength m ≤ bitLength n :=
  Nat.size_le_size h

theorem lt_pow_bitLength (n : ℤ) : n.natAbs < 2 ^ bitLength n := bitLength_le_iff.mp le_rfl

/-- A sum has at most one digit more than the longer summand. -/
theorem bitLength_add_le (m n : ℤ) : bitLength (m + n) ≤ max (bitLength m) (bitLength n) + 1 := by
  have hm : m.natAbs < 2 ^ max (bitLength m) (bitLength n) :=
    (lt_pow_bitLength m).trans_le (Nat.pow_le_pow_right (by omega) (le_max_left _ _))
  have hn : n.natAbs < 2 ^ max (bitLength m) (bitLength n) :=
    (lt_pow_bitLength n).trans_le (Nat.pow_le_pow_right (by omega) (le_max_right _ _))
  rw [bitLength_le_iff, Nat.pow_succ]
  omega

theorem bitLength_neg (n : ℤ) : bitLength (-n) = bitLength n := by
  rw [bitLength, Int.natAbs_neg, bitLength]

theorem bitLength_abs (n : ℤ) : bitLength |n| = bitLength n := by
  rw [bitLength, Int.natAbs_abs, bitLength]

theorem bitLength_sub_le (m n : ℤ) : bitLength (m - n) ≤ max (bitLength m) (bitLength n) + 1 := by
  rw [sub_eq_add_neg, ← bitLength_neg n]
  exact bitLength_add_le m (-n)

/-- A product has at most as many digits as its factors together. -/
theorem bitLength_mul_le (m n : ℤ) : bitLength (m * n) ≤ bitLength m + bitLength n := by
  rw [bitLength_le_iff, Int.natAbs_mul, Nat.pow_add]
  exact Nat.mul_lt_mul'' (lt_pow_bitLength m) (lt_pow_bitLength n)

/-- A power has at most as many times the digits as its exponent says. -/
theorem bitLength_pow_le (m : ℤ) {k : ℕ} (hk : k ≠ 0) : bitLength (m ^ k) ≤ k * bitLength m := by
  rw [bitLength_le_iff, Int.natAbs_pow, Nat.mul_comm, Nat.pow_mul]
  exact Nat.pow_lt_pow_left (lt_pow_bitLength m) hk

theorem bitLength_fmod_le (m : ℤ) {d : ℤ} (hd : d ≠ 0) : bitLength (m.fmod d) ≤ bitLength d := by
  have hnonneg := Int.emod_nonneg m hd
  have hlt := Int.emod_lt_abs m hd
  have habs := Int.abs_eq_natAbs d
  refine bitLength_mono ?_
  rw [Int.fmod_eq_emod]
  split
  · omega
  · omega

/-- A power of two has one digit more than its exponent. -/
theorem bitLength_two_pow (k : ℕ) : bitLength (2 ^ k) = k + 1 := by
  rw [bitLength, Int.natAbs_pow]
  exact Nat.size_pow

/-! ## 2. Chains

The chains are the meaning of the degree and the pass is its computation.  Their equivalence is not
evident from the definition: the pass multiplies a maximum over all parts, a chain goes down one of
them. -/

section Chains

variable {τ K : Type*} [Field K] [LinearOrder K]

/-- The exponents of powers that are nested in each other, from outside in. -/
inductive Chain (parts : τ → List τ) (exponent : τ → Option K) : τ → List K → Prop
  | nil (e : τ) : Chain parts exponent e []
  | single {e : τ} {k : K} (hk : exponent e = some k) : Chain parts exponent e [k]
  | within {e part : τ} {ks : List K} (hpart : part ∈ parts e)
      (h : Chain parts exponent part ks) : Chain parts exponent e ks
  | power {e part : τ} {k : K} {ks : List K} (hk : exponent e = some k) (hpart : part ∈ parts e)
      (h : Chain parts exponent part ks) : Chain parts exponent e (k :: ks)

/-- By how much a node multiplies the degree. -/
def factor (exponent : τ → Option K) (e : τ) : K := max 1 ((exponent e).getD 1)

/-- The degree of a tree is the largest degree of its parts, times its own exponent. -/
structure IsDegree (parts : τ → List τ) (exponent : τ → Option K) (size : τ → ℕ) (degree : τ → K) :
    Prop where
  smaller : ∀ e, ∀ part ∈ parts e, size part < size e
  nonneg : ∀ e k, exponent e = some k → 0 ≤ k
  eq : ∀ e, degree e = factor exponent e * ((parts e).map degree).foldr max 1

variable {parts : τ → List τ} {exponent : τ → Option K} {size : τ → ℕ} {degree : τ → K}

/-- No node makes the degree smaller: an exponent below one counts as one. -/
theorem one_le_factor (e : τ) : 1 ≤ factor exponent e := le_max_left _ _

/-- The exponent of a power is at most its factor. -/
theorem le_factor {e : τ} {k : K} (h : exponent e = some k) : k ≤ factor exponent e := by
  rw [factor, h]
  exact le_max_right _ _

theorem one_le_foldr_max (l : List K) : 1 ≤ l.foldr max 1 := by
  induction l with
  | nil => exact le_rfl
  | cons a l ih => exact ih.trans (le_max_right _ _)

theorem le_foldr_max {l : List K} {a : K} (h : a ∈ l) : a ≤ l.foldr max 1 := by
  induction l with
  | nil => cases h
  | cons b l ih =>
    rcases List.mem_cons.mp h with rfl | h
    · exact le_max_left _ _
    · exact (ih h).trans (le_max_right _ _)

/-- The largest degree is one, or that of some part. -/
theorem foldr_max_mem (l : List K) : l.foldr max 1 = 1 ∨ l.foldr max 1 ∈ l := by
  induction l with
  | nil => exact Or.inl rfl
  | cons a l ih =>
    rcases max_choice a (l.foldr max 1) with h | h
    · rw [List.foldr_cons, h]
      exact Or.inr List.mem_cons_self
    · rw [List.foldr_cons, h]
      exact ih.imp_right (List.mem_cons_of_mem a)

namespace IsDegree

variable (h : IsDegree parts exponent size degree)

include h

/-- **Some chain makes the degree.**

The induction is on the size.  At each node the chain goes on into a part of the largest degree,
and takes the node along if it is a power whose exponent counts. -/
theorem exists_chain (e : τ) : ∃ ks, Chain parts exponent e ks ∧ ks.prod = degree e := by
  induction hsize : size e using Nat.strong_induction_on generalizing e with
  | _ n ih =>
    subst hsize
    -- the chain that the best part makes
    have hparts : ∃ ks, ks.prod = ((parts e).map degree).foldr max 1 ∧
        (ks = [] ∨ ∃ part ∈ parts e, Chain parts exponent part ks) := by
      rcases foldr_max_mem ((parts e).map degree) with hone | hmem
      · exact ⟨[], by rw [hone, List.prod_nil], Or.inl rfl⟩
      · obtain ⟨part, hpart, hdegree⟩ := List.mem_map.mp hmem
        obtain ⟨ks, hchain, hprod⟩ := ih (size part) (h.smaller e part hpart) part rfl
        exact ⟨ks, hprod.trans hdegree, Or.inr ⟨part, hpart, hchain⟩⟩
    obtain ⟨ks, hprod, hchain⟩ := hparts
    rw [h.eq e, ← hprod]
    rcases max_choice 1 ((exponent e).getD 1) with hone | hexp
    · rw [factor, hone, one_mul]
      rcases hchain with rfl | ⟨part, hpart, hchain⟩
      · exact ⟨[], .nil e, rfl⟩
      · exact ⟨ks, .within hpart hchain, rfl⟩
    · rw [factor, hexp]
      cases hk : exponent e with
      | none =>
        rw [Option.getD_none, one_mul]
        rcases hchain with rfl | ⟨part, hpart, hchain⟩
        · exact ⟨[], .nil e, rfl⟩
        · exact ⟨ks, .within hpart hchain, rfl⟩
      | some k =>
        rcases hchain with rfl | ⟨part, hpart, hchain⟩
        · exact ⟨[k], .single hk, rfl⟩
        · exact ⟨k :: ks, .power hk hpart hchain, rfl⟩

variable [IsStrictOrderedRing K]

theorem one_le (e : τ) : 1 ≤ degree e := by
  rw [h.eq]
  exact one_le_mul_of_one_le_of_one_le (one_le_factor e) (one_le_foldr_max _)

/-- The degree of a part, times the node's factor, is at most the degree of the node. -/
theorem factor_mul_le {e part : τ} (hpart : part ∈ parts e) :
    factor exponent e * degree part ≤ degree e := by
  rw [h.eq e]
  exact mul_le_mul_of_nonneg_left (le_foldr_max (List.mem_map_of_mem hpart))
    (zero_le_one.trans (one_le_factor e))

/-- A part has at most the degree of the whole. -/
theorem le_of_part {e part : τ} (hpart : part ∈ parts e) : degree part ≤ degree e :=
  (le_mul_of_one_le_left (zero_le_one.trans (h.one_le part)) (one_le_factor e)).trans
    (h.factor_mul_le hpart)

/-- The factor of a node is at most its degree. -/
theorem factor_le (e : τ) : factor exponent e ≤ degree e := by
  rw [h.eq e]
  exact le_mul_of_one_le_right (zero_le_one.trans (one_le_factor e)) (one_le_foldr_max _)

theorem chain_le {e : τ} {ks : List K} (hchain : Chain parts exponent e ks) :
    ks.prod ≤ degree e := by
  induction hchain with
  | nil e => exact h.one_le e
  | single hk =>
    rw [List.prod_singleton]
    exact (le_factor hk).trans (h.factor_le _)
  | within hpart _ ih => exact ih.trans (h.le_of_part hpart)
  | @power e part k ks hk hpart _ ih =>
    rw [List.prod_cons]
    have hdegree : 0 ≤ degree part := zero_le_one.trans (h.one_le part)
    calc k * ks.prod ≤ k * degree part := mul_le_mul_of_nonneg_left ih (h.nonneg e k hk)
      _ ≤ factor exponent e * degree part := mul_le_mul_of_nonneg_right (le_factor hk) hdegree
      _ ≤ degree e := h.factor_mul_le hpart

/-- **A bound on the degree is a bound on all chains.**  One half is `chain_le`, the other is the
chain that makes the degree. -/
theorem chains_le_iff {e : τ} {bound : K} :
    (∀ ks, Chain parts exponent e ks → ks.prod ≤ bound) ↔ degree e ≤ bound := by
  constructor
  · intro hall
    obtain ⟨ks, hchain, hprod⟩ := h.exists_chain e
    rw [← hprod]
    exact hall ks hchain
  · exact fun hle ks hchain => (h.chain_le hchain).trans hle

end IsDegree

end Chains

/-! ## 3. Growth

Why the degree is the number to bound.  What a tree computes is related to the tree by `Made`, one
clause for each way in which a number comes about, so that the evaluation itself need not be known.
-/

section Growth

variable {τ K : Type*} [Field K]

/-- A part of a part, and so on. -/
inductive Within (parts : τ → List τ) : τ → τ → Prop
  | self (e : τ) : Within parts e e
  | part {e part sub : τ} (hpart : part ∈ parts e) (h : Within parts part sub) : Within parts e sub

/-- How a number comes about at a node: it is as small as the node is heavy, it is one of the
numbers of the parts, a sum or a product of two of them, or a power. -/
inductive Made (parts : τ → List τ) (exponent : τ → Option K) (weight : τ → ℕ) (Val : τ → ℤ → Prop)
    (e : τ) (n : ℤ) : Prop
  | small (h : bitLength n ≤ weight e)
  | copy {part : τ} {m : ℤ} (hpart : part ∈ parts e) (hm : Val part m)
      (h : bitLength n ≤ bitLength m)
  | both {p q : τ} {m k : ℤ} (hp : p ∈ parts e) (hq : q ∈ parts e)
      (hweight : weight p + weight q < weight e) (hm : Val p m) (hk : Val q k)
      (h : bitLength n ≤ bitLength m + bitLength k + 1)
  | power {part : τ} {m : ℤ} {k : ℕ} (hpart : part ∈ parts e) (hm : Val part m)
      (hk : exponent e = some (k : K)) (h : bitLength n ≤ k * bitLength m)

/-- Numbers that come about so, in trees that are as heavy as each of their parts. -/
structure Grows (parts : τ → List τ) (exponent : τ → Option K) (weight : τ → ℕ)
    (Val : τ → ℤ → Prop) : Prop where
  weight_le : ∀ e, ∀ part ∈ parts e, weight part ≤ weight e
  made : ∀ e n, Val e n → Made parts exponent weight Val e n

variable {parts : τ → List τ} {exponent : τ → Option K} {size weight : τ → ℕ} {degree : τ → K}
  {Val : τ → ℤ → Prop}

theorem Grows.weight_le_of_within (h : Grows parts exponent weight Val) {e sub : τ}
    (hsub : Within parts e sub) : weight sub ≤ weight e := by
  induction hsub with
  | self => exact le_rfl
  | part hpart _ ih => exact ih.trans (h.weight_le _ _ hpart)

variable [LinearOrder K] [IsStrictOrderedRing K]

/-- No part, however deep, has a larger degree than the whole. -/
theorem IsDegree.le_of_within (h : IsDegree parts exponent size degree) {e sub : τ}
    (hsub : Within parts e sub) : degree sub ≤ degree e := by
  induction hsub with
  | self => exact le_rfl
  | part hpart _ ih => exact ih.trans (h.le_of_part hpart)

/-- **A number has at most as many digits as the degree times the weight.**

A sum adds one digit and a node's weight pays for it; a product adds the digits of its factors as
the weights add up; a power multiplies the digits by its exponent, and the degree by as much. -/
theorem Grows.bitLength_le (hgrows : Grows parts exponent weight Val)
    (h : IsDegree parts exponent size degree) {e : τ} {n : ℤ} (hn : Val e n) :
    (bitLength n : K) ≤ degree e * weight e := by
  induction hsize : size e using Nat.strong_induction_on generalizing e n with
  | _ s ih =>
    subst hsize
    have hdegree : 0 ≤ degree e := zero_le_one.trans (h.one_le e)
    have hpart : ∀ part ∈ parts e, ∀ m, Val part m → (bitLength m : K) ≤ degree e * weight part :=
      fun part hpart m hm => (ih (size part) (h.smaller e part hpart) hm rfl).trans
        (mul_le_mul_of_nonneg_right (h.le_of_part hpart) (Nat.cast_nonneg _))
    cases hgrows.made e n hn with
    | small hle =>
      calc (bitLength n : K) ≤ weight e := Nat.cast_le.mpr hle
        _ ≤ degree e * weight e := le_mul_of_one_le_left (Nat.cast_nonneg _) (h.one_le e)
    | @copy part m hmem hm hle =>
      calc (bitLength n : K) ≤ bitLength m := Nat.cast_le.mpr hle
        _ ≤ degree e * weight part := hpart part hmem m hm
        _ ≤ degree e * weight e := mul_le_mul_of_nonneg_left
          (Nat.cast_le.mpr (hgrows.weight_le e part hmem)) hdegree
    | @both p q m k hp hq hweight hm hk hle =>
      have hsum : ((weight p + weight q + 1 : ℕ) : K) ≤ weight e := Nat.cast_le.mpr hweight
      calc (bitLength n : K) ≤ ((bitLength m + bitLength k + 1 : ℕ) : K) := Nat.cast_le.mpr hle
        _ = bitLength m + bitLength k + 1 := by push_cast; rfl
        _ ≤ degree e * weight p + degree e * weight q + degree e :=
          add_le_add (add_le_add (hpart p hp m hm) (hpart q hq k hk)) (h.one_le e)
        _ = degree e * ((weight p + weight q + 1 : ℕ) : K) := by push_cast; ring
        _ ≤ degree e * weight e := mul_le_mul_of_nonneg_left hsum hdegree
    | @power part m k hmem hm hk hle =>
      have hbase := ih (size part) (h.smaller e part hmem) hm rfl
      have hlarge : 0 ≤ degree part * weight part :=
        mul_nonneg (zero_le_one.trans (h.one_le part)) (Nat.cast_nonneg _)
      calc (bitLength n : K) ≤ ((k * bitLength m : ℕ) : K) := Nat.cast_le.mpr hle
        _ = k * bitLength m := Nat.cast_mul _ _
        _ ≤ k * (degree part * weight part) := mul_le_mul_of_nonneg_left hbase (Nat.cast_nonneg _)
        _ ≤ factor exponent e * (degree part * weight part) :=
          mul_le_mul_of_nonneg_right (le_factor hk) hlarge
        _ = factor exponent e * degree part * weight part := (mul_assoc _ _ _).symm
        _ ≤ degree e * weight part :=
          mul_le_mul_of_nonneg_right (h.factor_mul_le hmem) (Nat.cast_nonneg _)
        _ ≤ degree e * weight e := mul_le_mul_of_nonneg_left
          (Nat.cast_le.mpr (hgrows.weight_le e part hmem)) hdegree

/-- **With a bound on the degree, the bit length is linear in the weight**, at every part of a
tree.  Where the weight is bounded by the length of a text, a short text cannot make a long number
at any moment of its evaluation. -/
theorem Grows.bitLength_le_of_within (hgrows : Grows parts exponent weight Val)
    (h : IsDegree parts exponent size degree) {e sub : τ} (hsub : Within parts e sub) {bound : ℕ}
    (hbound : degree e ≤ bound) {n : ℤ} (hn : Val sub n) : bitLength n ≤ bound * weight e := by
  have hle : (bitLength n : K) ≤ ((bound * weight e : ℕ) : K) := by
    calc (bitLength n : K) ≤ degree sub * weight sub := hgrows.bitLength_le h hn
      _ ≤ bound * weight e := mul_le_mul ((h.le_of_within hsub).trans hbound)
        (Nat.cast_le.mpr (hgrows.weight_le_of_within hsub)) (Nat.cast_nonneg _)
        (Nat.cast_nonneg _)
      _ = ((bound * weight e : ℕ) : K) := (Nat.cast_mul _ _).symm
  exact_mod_cast hle

end Growth

end NestedPowers
