/-
# The stored conversions (`app.api.units`, `app.db.seed`)

A conversion is stored for a pair of units with its formula.  Requests create and delete
conversions, and a seed, which may run at any time, puts in the default ones for the pairs that have
none.

The table's constraint, and the check that comes before a conversion is stored, hold over every
history (`Kept.step`).  A seed is the case to look at: it checks nothing, and it commits its rows all
at once.

`stored_conversions`: whatever is requested and however often the table is seeded, each pair has at
most one conversion, no formula that the engine would refuse is ever stored, and after a seed no
default is missing and a second seed does nothing.

A seed commits all missing defaults or none.  It would be none, over and over, if the defaults
repeated a pair, or if two seeds were to run against one table at the same time; the first is
excluded by the list of defaults (`nodup_defaults`), the second is not modelled: requests and seeds
come one after the other.

The engine is a parameter only through its parser.  A formula is stored if the check accepts it,
and what the check accepts `convert` evaluates (`tree_of_valid`), so no stored conversion can be
refused later on.
-/
import WitsmlViewer.RealFormulas

namespace WitsmlViewer
namespace Units

open Py

/-! ## 1. The table

The table as the database has it, with the counter that gives it ids.  Ids are never used twice, so
a conversion that is deleted and seeded again is another row. -/

structure UnitDef where
  id : ℤ
  name : Str
  fromUnit : Str
  toUnit : Str
  expression : Str
  isBuiltin : Bool
deriving DecidableEq

/-- What the unique constraint is about. -/
def UnitDef.pair (row : UnitDef) : Str × Str := (row.fromUnit, row.toUnit)

/-- The table; a failed insert uses up its id. -/
structure UnitTable where
  rows : List UnitDef := []
  nextId : ℤ := 1
deriving DecidableEq

/-- The payload of a request for a new one. -/
structure UnitDefCreate where
  name : Str
  fromUnit : Str
  toUnit : Str
  expression : Str
  isBuiltin : Bool := false
deriving DecidableEq

/-- The length bounds of the payload's fields. -/
def UnitDefCreate.Fits (payload : UnitDefCreate) : Prop :=
  (1 ≤ payload.name.length ∧ payload.name.length ≤ 120) ∧
    (1 ≤ payload.fromUnit.length ∧ payload.fromUnit.length ≤ 40) ∧
    (1 ≤ payload.toUnit.length ∧ payload.toUnit.length ≤ 40) ∧
    (1 ≤ payload.expression.length ∧ payload.expression.length ≤ 500)

instance (payload : UnitDefCreate) : Decidable payload.Fits := inferInstanceAs (Decidable (_ ∧ _))

inductive UnitReply
  | created (row : UnitDef)
  | deleted
  | refused (status : ℕ) (detail : Str)
  | seeded (added : ℕ)
deriving DecidableEq

/-! ## 2. The requests

`create_unit` checks the formula and inserts; that the pair is free is left to the constraint.
`seed_unit_defs` reads which pairs there are, once, and then adds the others. -/

section Requests

variable (parse : Str → Except Message Expr) (t : UnitTable)

/-- The row that a payload asks for. -/
def UnitTable.row (payload : UnitDefCreate) : UnitDef :=
  ⟨t.nextId, payload.name, payload.fromUnit, payload.toUnit, payload.expression, payload.isBuiltin⟩

/-- `create_unit`; the framework refuses a payload that does not fit. -/
def UnitTable.create (payload : UnitDefCreate) : UnitTable × UnitReply :=
  if ¬payload.Fits then (t, .refused 422 [])
  else match validate parse payload.expression with
    | .ok (true, _) =>
      if (t.rows.map UnitDef.pair).contains (t.row payload).pair then
        ({ t with nextId := t.nextId + 1 },
          .refused 409 "unit definition already exists or violates a constraint".toList)
      else (⟨t.rows ++ [t.row payload], t.nextId + 1⟩, .created (t.row payload))
    | .ok (false, reason) =>
      (t, .refused 400 ("invalid expression: ".toList ++ reason.getD "None".toList))
    | .error _ => (t, .refused 500 [])

/-- `delete_unit`. -/
def UnitTable.delete (unitId : ℤ) : UnitTable × UnitReply :=
  if t.rows.any (·.id = unitId) then ({ t with rows := t.rows.filter (·.id ≠ unitId) }, .deleted)
  else (t, .refused 404 "unit definition not found".toList)

def defaultDef (name fromUnit toUnit expression : String) : UnitDefCreate :=
  ⟨name.toList, fromUnit.toList, toUnit.toList, expression.toList, true⟩

def DEFAULT_UNIT_DEFS : List UnitDefCreate :=
  [defaultDef "Specific gravity to pounds per cubic foot" "sg" "pcf" "__value__ * 62.4",
    defaultDef "Pounds per cubic foot to pounds per gallon" "pcf" "ppg" "__value__ / 7.48",
    defaultDef "Specific gravity to pounds per gallon" "sg" "ppg" "__value__ * 8.345",
    defaultDef "Percent to parts per million" "percent" "ppm" "__value__ * 10000",
    defaultDef "Parts per million to percent" "ppm" "percent" "__value__ / 10000",
    defaultDef "Metres to feet" "m" "ft" "__value__ * 3.280839895",
    defaultDef "Feet to metres" "ft" "m" "__value__ / 3.280839895",
    defaultDef "Kilopascal to psi" "kPa" "psi" "__value__ * 0.1450377",
    defaultDef "psi to Kilopascal" "psi" "kPa" "__value__ / 0.1450377",
    defaultDef "Identity" "__value__" "__value__" "__value__"]

/-- The units that it is for. -/
def UnitDefCreate.pair (payload : UnitDefCreate) : Str × Str := (payload.fromUnit, payload.toUnit)

/-- The loop of `seed_unit_defs`; `existing` was read before it. -/
def UnitTable.addMissing (existing : List (Str × Str)) (defs : List UnitDefCreate) : UnitTable :=
  defs.foldl (fun t payload =>
    if existing.contains payload.pair then t else ⟨t.rows ++ [t.row payload], t.nextId + 1⟩) t

/-- `seed_unit_defs` and the commit, which fails as a whole. -/
def UnitTable.seed : UnitTable × UnitReply :=
  let seeded := t.addMissing (t.rows.map UnitDef.pair) DEFAULT_UNIT_DEFS
  if (seeded.rows.map UnitDef.pair).Nodup then
    (seeded, .seeded (seeded.rows.length - t.rows.length))
  else ({ t with nextId := seeded.nextId }, .refused 500 [])

end Requests

/-- A request, or a run of the seed. -/
inductive UnitRequest
  | create (payload : UnitDefCreate)
  | delete (unitId : ℤ)
  | seed

/-- What one of them does to the table. -/
def UnitTable.step (parse : Str → Except Message Expr) (t : UnitTable) : UnitRequest → UnitTable
  | .create payload => (t.create parse payload).1
  | .delete unitId => (t.delete unitId).1
  | .seed => t.seed.1

/-- The table after a history. -/
def UnitTable.run (parse : Str → Except Message Expr) (rs : List UnitRequest) : UnitTable :=
  rs.foldl (UnitTable.step parse) {}

/-! ## 3. What every request keeps

Two promises: pairs are distinct, and every formula is one that the check accepts.  A request that
is refused changes nothing, and one that violates the constraint is rolled back. -/

section Kept

variable {parse : Str → Except Message Expr} {t : UnitTable}

/-- The constraint of the table, and the promise about its formulas. -/
structure Kept (parse : Str → Except Message Expr) (t : UnitTable) : Prop where
  pairs : (t.rows.map UnitDef.pair).Nodup
  valid : ∀ row ∈ t.rows, validate parse row.expression = .ok (true, none)

/-- Whoever adds a row to the table checks both. -/
theorem Kept.add (h : Kept parse t) {payload : UnitDefCreate}
    (hpair : payload.pair ∉ t.rows.map UnitDef.pair)
    (hvalid : validate parse payload.expression = .ok (true, none)) :
    Kept parse ⟨t.rows ++ [t.row payload], t.nextId + 1⟩ := by
  constructor
  · rw [List.map_append]
    refine List.nodup_append.mpr ⟨h.pairs, List.nodup_singleton _, ?_⟩
    rintro a ha b hb rfl
    rw [List.mem_singleton.mp hb] at ha
    exact hpair ha
  · intro row hrow
    rcases List.mem_append.mp hrow with hrow | hrow
    · exact h.valid row hrow
    · rw [List.mem_singleton.mp hrow]
      exact hvalid

/-- There is no reason for what is accepted. -/
theorem reason_of_valid {expression : Str} {reason : Option Message}
    (h : validate parse expression = .ok (true, reason)) : reason = none := by
  rw [validate] at h
  split at h
  · cases h
  · split at h
    · cases h
    · split at h
      · cases h
      · exact (Prod.mk.inj (Except.ok.inj h)).2.symm

/-- A creation keeps them, whether it is accepted, refused or in conflict. -/
theorem Kept.create (h : Kept parse t) (payload : UnitDefCreate) :
    Kept parse (t.create parse payload).1 := by
  rw [UnitTable.create]
  split
  · exact h
  · split
    · rename_i reason hvalid
      split
      · exact ⟨h.pairs, h.valid⟩
      · rename_i hfree
        obtain rfl := reason_of_valid hvalid
        exact h.add (fun hmem => hfree (List.contains_iff_mem.mpr hmem)) hvalid
    · exact h
    · exact h

theorem Kept.delete (h : Kept parse t) (unitId : ℤ) : Kept parse (t.delete unitId).1 := by
  rw [UnitTable.delete]
  split
  · refine ⟨h.pairs.sublist (List.filter_sublist.map UnitDef.pair), fun row hrow => ?_⟩
    exact h.valid row (List.mem_filter.mp hrow).1
  · exact h

end Kept

/-! ## 4. Seeds

The loop adds the defaults whose pair was not there before it.  That the defaults themselves are
acceptable is checked here by computing the check on their trees; the seed does not do it. -/

section Seeds

variable {parse : Str → Except Message Expr}

/-- What the loop adds: a row for each pair that was missing before it. -/
theorem addMissing_eq (t : UnitTable) (existing : List (Str × Str)) (defs : List UnitDefCreate) :
    ∃ new : List UnitDef, (t.addMissing existing defs).rows = t.rows ++ new ∧
      new.map UnitDef.pair =
        (defs.map UnitDefCreate.pair).filter (fun pair => !existing.contains pair) ∧
      ∀ row ∈ new, ∃ payload ∈ defs, row.expression = payload.expression := by
  induction defs generalizing t with
  | nil => exact ⟨[], (List.append_nil _).symm, rfl, fun _ h => absurd h List.not_mem_nil⟩
  | cons payload defs ih =>
    rw [UnitTable.addMissing, List.foldl_cons, List.map_cons, List.filter_cons]
    by_cases hold : existing.contains payload.pair = true
    · obtain ⟨new, hrows, hpairs, hfrom⟩ := ih t
      rw [if_pos hold, if_neg (by rw [hold]; decide)]
      refine ⟨new, hrows, hpairs, fun row hrow => ?_⟩
      obtain ⟨d, hd, heq⟩ := hfrom row hrow
      exact ⟨d, List.mem_cons_of_mem _ hd, heq⟩
    · obtain ⟨new, hrows, hpairs, hfrom⟩ := ih ⟨t.rows ++ [t.row payload], t.nextId + 1⟩
      rw [if_neg hold, if_pos (by rw [Bool.eq_false_of_not_eq_true hold]; rfl)]
      refine ⟨t.row payload :: new, ?_, congrArg (payload.pair :: ·) hpairs, fun row hrow => ?_⟩
      · refine hrows.trans ?_
        rw [List.append_assoc, List.singleton_append]
      · rcases List.mem_cons.mp hrow with rfl | hrow
        · exact ⟨payload, List.mem_cons_self, rfl⟩
        · obtain ⟨d, hd, heq⟩ := hfrom row hrow
          exact ⟨d, List.mem_cons_of_mem _ hd, heq⟩

/-- Nothing is missing, nothing is added. -/
theorem addMissing_none (t : UnitTable) {existing : List (Str × Str)} {defs : List UnitDefCreate}
    (h : ∀ payload ∈ defs, existing.contains payload.pair = true) :
    t.addMissing existing defs = t := by
  induction defs with
  | nil => rfl
  | cons payload defs ih =>
    rw [UnitTable.addMissing, List.foldl_cons, if_pos (h payload List.mem_cons_self)]
    exact ih fun d hd => h d (List.mem_cons_of_mem _ hd)

theorem nodup_defaults : (DEFAULT_UNIT_DEFS.map UnitDefCreate.pair).Nodup := by decide +kernel

/-- **A seed never violates the constraint.** -/
theorem Kept.nodup_seed {t : UnitTable} (h : Kept parse t) :
    ((t.addMissing (t.rows.map UnitDef.pair) DEFAULT_UNIT_DEFS).rows.map UnitDef.pair).Nodup := by
  obtain ⟨new, hrows, hpairs, -⟩ :=
    addMissing_eq t (t.rows.map UnitDef.pair) DEFAULT_UNIT_DEFS
  rw [hrows, List.map_append, hpairs]
  refine List.nodup_append.mpr ⟨h.pairs, nodup_defaults.filter _, ?_⟩
  rintro a ha b hb rfl
  have hnew := (List.mem_filter.mp hb).2
  rw [List.contains_iff_mem.mpr ha] at hnew
  cases hnew

theorem Kept.seed_eq {t : UnitTable} (h : Kept parse t) : t.seed =
    (t.addMissing (t.rows.map UnitDef.pair) DEFAULT_UNIT_DEFS,
      .seeded ((t.addMissing (t.rows.map UnitDef.pair) DEFAULT_UNIT_DEFS).rows.length -
        t.rows.length)) := if_pos h.nodup_seed

/-- What the parser makes of the default formulas. -/
def defaultTrees : List Expr :=
  [scaled .mult (decimal 624 10), scaled .div (decimal 748 100), scaled .mult (decimal 8345 1000),
    scaled .mult (.int 10000), scaled .div (.int 10000),
    scaled .mult (decimal 3280839895 1000000000), scaled .div (decimal 3280839895 1000000000),
    scaled .mult (decimal 1450377 10000000), scaled .div (decimal 1450377 10000000),
    .name VALUE_NAME .load]
where
  decimal (num : ℤ) (den : ℕ) : Constant := .float (.ofRatio num den) (Float64.ofUnits_ne_nan _ _)
  scaled (op : Operator) (factor : Constant) : Expr :=
    .binOp (.name VALUE_NAME .load) op (.constant factor)

/-- **The default formulas are accepted**, though nothing checks them. -/
theorem defaults_accepted : ∀ e ∈ DEFAULT_UNIT_DEFS.zip defaultTrees,
    strip e.1.expression ≠ [] ∧ checkAst e.2 = .ok () := by decide +kernel

theorem zip_defaultTrees : (DEFAULT_UNIT_DEFS.zip defaultTrees).map Prod.fst = DEFAULT_UNIT_DEFS :=
  rfl

/-- A parser that makes these trees has the check accept them. -/
theorem valid_default
    (hparse : ∀ e ∈ DEFAULT_UNIT_DEFS.zip defaultTrees, parse e.1.expression = .ok e.2)
    {payload : UnitDefCreate} (hpayload : payload ∈ DEFAULT_UNIT_DEFS) :
    validate parse payload.expression = .ok (true, none) := by
  rw [← zip_defaultTrees] at hpayload
  obtain ⟨e, he, rfl⟩ := List.mem_map.mp hpayload
  obtain ⟨hstrip, hcheck⟩ := defaults_accepted e he
  rw [validate, if_neg hstrip, hparse e he]
  dsimp only
  rw [hcheck]

theorem Kept.seed {t : UnitTable} (h : Kept parse t)
    (hparse : ∀ e ∈ DEFAULT_UNIT_DEFS.zip defaultTrees, parse e.1.expression = .ok e.2) :
    Kept parse t.seed.1 := by
  rw [h.seed_eq]
  refine ⟨h.nodup_seed, fun row hrow => ?_⟩
  obtain ⟨new, hrows, -, hfrom⟩ :=
    addMissing_eq t (t.rows.map UnitDef.pair) DEFAULT_UNIT_DEFS
  rw [hrows] at hrow
  rcases List.mem_append.mp hrow with hrow | hrow
  · exact h.valid row hrow
  · obtain ⟨payload, hpayload, heq⟩ := hfrom row hrow
    rw [heq]
    exact valid_default hparse hpayload

end Seeds

/-! ## 5. Histories

A history is a list of requests and seeds in any order, from an empty table. -/

section Histories

variable {parse : Str → Except Message Expr}

/-- **Every request keeps the table's promises.** -/
theorem Kept.step {t : UnitTable} (h : Kept parse t)
    (hparse : ∀ e ∈ DEFAULT_UNIT_DEFS.zip defaultTrees, parse e.1.expression = .ok e.2)
    (r : UnitRequest) : Kept parse (t.step parse r) := by
  cases r with
  | create payload => exact h.create payload
  | delete unitId => exact h.delete unitId
  | seed => exact h.seed hparse

theorem Kept.run
    (hparse : ∀ e ∈ DEFAULT_UNIT_DEFS.zip defaultTrees, parse e.1.expression = .ok e.2)
    (rs : List UnitRequest) : Kept parse (UnitTable.run parse rs) := by
  induction rs using List.reverseRecOn with
  | nil => exact ⟨List.nodup_nil, fun _ h => absurd h List.not_mem_nil⟩
  | append_singleton rs r ih =>
    rw [UnitTable.run, List.foldl_append]
    exact ih.step hparse r

/-- An accepted formula is one of the grammar, and `convert` evaluates it. -/
theorem tree_of_valid {expression : Str} (h : validate parse expression = .ok (true, none)) :
    ∃ tree, parse expression = .ok tree ∧ Formula Constant.ExponentLiteral tree ∧
      ∀ P value, convert P parse value expression = evaluate P value tree := by
  have hstrip : strip expression ≠ [] := fun hnil => by
    rw [validate, if_pos hnil] at h
    cases h
  cases hparse : parse expression with
  | error message =>
    rw [validate, if_neg hstrip, hparse] at h
    cases h
  | ok tree =>
    have hcheck := checkAst_of_valid h hparse
    exact ⟨tree, rfl, (checkAst_iff tree).1.mp hcheck, fun P value =>
      convert_accepted hstrip hparse hcheck⟩

/-- **The stored conversions.**  After every history each pair of units has at most one conversion,
and every stored formula is one that the engine evaluates.  A seed then keeps all rows and leaves
no default pair without one; seeding again changes nothing.

A pair that an operator has given a formula of his own keeps it: the seed looks at pairs only.  A
default that has been deleted comes back with the next seed, which may be less welcome. -/
theorem stored_conversions
    (hparse : ∀ e ∈ DEFAULT_UNIT_DEFS.zip defaultTrees, parse e.1.expression = .ok e.2)
    (rs : List UnitRequest) :
    ((UnitTable.run parse rs).rows.map UnitDef.pair).Nodup ∧
      (∀ row ∈ (UnitTable.run parse rs).rows, ∃ tree, parse row.expression = .ok tree ∧
        Formula Constant.ExponentLiteral tree ∧
        ∀ P value, convert P parse value row.expression = evaluate P value tree) ∧
      (UnitTable.run parse rs).rows <+: (UnitTable.run parse rs).seed.1.rows ∧
      (∀ payload ∈ DEFAULT_UNIT_DEFS,
        payload.pair ∈ (UnitTable.run parse rs).seed.1.rows.map UnitDef.pair) ∧
      (UnitTable.run parse rs).seed.1.seed = ((UnitTable.run parse rs).seed.1, .seeded 0) := by
  have h := Kept.run hparse rs
  obtain ⟨new, hrows, hpairs, -⟩ := addMissing_eq (UnitTable.run parse rs)
    ((UnitTable.run parse rs).rows.map UnitDef.pair) DEFAULT_UNIT_DEFS
  have hall : ∀ payload ∈ DEFAULT_UNIT_DEFS,
      payload.pair ∈ (UnitTable.run parse rs).seed.1.rows.map UnitDef.pair := by
    intro payload hpayload
    rw [h.seed_eq]
    dsimp only
    rw [hrows, List.map_append, hpairs, List.mem_append, List.mem_filter]
    by_cases hold : payload.pair ∈ (UnitTable.run parse rs).rows.map UnitDef.pair
    · exact Or.inl hold
    · refine Or.inr ⟨List.mem_map_of_mem hpayload, ?_⟩
      rw [Bool.eq_false_of_not_eq_true fun hc => hold (List.contains_iff_mem.mp hc)]
      rfl
  refine ⟨h.pairs, fun row hrow => tree_of_valid (h.valid row hrow), ?_, hall, ?_⟩
  · rw [h.seed_eq]
    exact ⟨new, hrows.symm⟩
  · have hagain := addMissing_none (UnitTable.run parse rs).seed.1
      fun payload hpayload => List.contains_iff_mem.mpr (hall payload hpayload)
    rw [(h.seed hparse).seed_eq, hagain, Nat.sub_self]

end Histories

/-! An operator's own conversion, a seed, and a default that is deleted. -/

/-- A parser that knows the default formulas. -/
def parseDefaults (expression : Str) : Except Message Expr :=
  ((DEFAULT_UNIT_DEFS.zip defaultTrees).find? fun e => e.1.expression = expression).elim
    (.error "invalid syntax".toList) fun e => .ok e.2

theorem parseDefaults_eq :
    ∀ e ∈ DEFAULT_UNIT_DEFS.zip defaultTrees, parseDefaults e.1.expression = .ok e.2 := by
  repeat' first
    | exact List.forall_mem_nil _
    | refine List.forall_mem_cons.mpr ⟨rfl, ?_⟩

/-- An operator's own conversion from metres to feet. -/
def ownFeet : UnitDefCreate :=
  { defaultDef "Driller's feet" "m" "ft" "__value__ * 3.280839895" with isBuiltin := false }

def ownHistory : List UnitRequest := [.create ownFeet, .seed, .delete 2]

/-- The operator's conversion stays; the deleted default comes back with the next seed. -/
theorem stored_conversions_own :
    ((UnitTable.run parseDefaults ownHistory).rows.map UnitDef.name).head? =
        some "Driller's feet".toList ∧
      (UnitTable.run parseDefaults ownHistory).rows.length = 9 ∧
      (UnitTable.run parseDefaults ownHistory).seed.2 = .seeded 1 ∧
      (UnitTable.run parseDefaults ownHistory).seed.1.seed =
        ((UnitTable.run parseDefaults ownHistory).seed.1, .seeded 0) :=
  ⟨by decide +kernel, by decide +kernel, by decide +kernel,
    (stored_conversions parseDefaults_eq ownHistory).2.2.2.2⟩

end Units
end WitsmlViewer
