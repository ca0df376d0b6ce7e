/-
# The snapshot as an upsert (`_snapshot_index_state`)

The rows of all states go into one transaction.  Which rows exist already is read once, before the
loop, so of two rows with one key that is not in the table both are inserted, `uq_index_cache` is
violated, and no state at all is saved.  Curve lists come straight from the server's headers, which
may repeat a mnemonic.

`snapshot_upserts_iff`: the snapshot is the upsert it is meant to be exactly if every mnemonic that
a state repeats has its row already, and every cursor has a column.

The failure is not confined to the log that has the odd header.  There is one transaction for all
states of the server, so one repeated mnemonic keeps every cursor from being saved, at every
snapshot, until the header changes.  The exception is caught and logged by both callers, so
ingestion goes on; it is the next restart that starts from old cursors or from none.

The table before the snapshot is arbitrary here, and so are the states.  `IndexCache` has the other
direction of travel, from the rows back to states, for tables that a snapshot has just written.
-/
import WitsmlViewer.IndexCache

namespace WitsmlViewer

open Py

/-! ## 1. Upserts with an index read beforehand

The dictionary of existing rows is not touched by the loop that uses it.  Updates therefore go to
the rows that were there before, and everything else is an insertion; this section says what the
table is after a list of rows has been treated so. -/

section Upserts

variable (existing : List IndexCacheSnapshot)

/-- The rows that are inserted. -/
def freshRows (rows : List IndexCacheSnapshot) : List IndexCacheSnapshot :=
  rows.filter fun r => decide (r.key ∉ existing.map IndexCacheSnapshot.key)

theorem any_key_iff (r : IndexCacheSnapshot) :
    existing.any (fun r' => decide (r'.key = r.key)) = true ↔
      r.key ∈ existing.map IndexCacheSnapshot.key := by
  simp [List.any_eq_true, List.mem_map]

/-- A row whose key was there before is an update. -/
theorem upsertRow_cached {r : IndexCacheSnapshot} (table : List IndexCacheSnapshot)
    (h : r.key ∈ existing.map IndexCacheSnapshot.key) :
    upsertRow existing table r = table.map fun r' => if r'.key = r.key then r else r' := by
  rw [upsertRow, if_pos ((any_key_iff existing r).mpr h)]

/-- Any other is an insertion, also where its key has been inserted a moment ago. -/
theorem upsertRow_fresh {r : IndexCacheSnapshot} (table : List IndexCacheSnapshot)
    (h : r.key ∉ existing.map IndexCacheSnapshot.key) :
    upsertRow existing table r = table ++ [r] := by
  rw [upsertRow, if_neg (fun hany => h ((any_key_iff existing r).mp hany))]

theorem freshRows_append (rows : List IndexCacheSnapshot) (r : IndexCacheSnapshot) :
    freshRows existing (rows ++ [r]) = freshRows existing rows ++ freshRows existing [r] :=
  List.filter_append _ _

/-- An update keeps every key. -/
theorem key_update (r r' : IndexCacheSnapshot) :
    (if r'.key = r.key then r else r').key = r'.key := by
  split
  · rename_i h
    exact h.symm
  · rfl

/-- **The keys of the new table**: those that were there, then those of the inserted rows.  Whether
the constraint holds can be read off this list. -/
theorem map_key_upserts (rows : List IndexCacheSnapshot) :
    (rows.foldl (upsertRow existing) existing).map IndexCacheSnapshot.key =
      existing.map IndexCacheSnapshot.key ++
        (freshRows existing rows).map IndexCacheSnapshot.key := by
  induction rows using List.reverseRecOn with
  | nil => exact (List.append_nil _).symm
  | append_singleton rows r ih =>
    rw [List.foldl_append, List.foldl_cons, List.foldl_nil, freshRows_append]
    by_cases hr : r.key ∈ existing.map IndexCacheSnapshot.key
    · have hnone : freshRows existing [r] = [] :=
        List.filter_eq_nil_iff.mpr (by simpa using hr)
      have hkeys : (IndexCacheSnapshot.key ∘ fun r' => if r'.key = r.key then r else r') =
          IndexCacheSnapshot.key := funext (key_update r)
      rw [upsertRow_cached existing _ hr, hnone, List.append_nil, ← ih, List.map_map, hkeys]
    · have hone : freshRows existing [r] = [r] :=
        List.filter_eq_self.mpr (by simpa using hr)
      rw [upsertRow_fresh existing _ hr, hone, List.map_append, List.map_append, ih,
        List.append_assoc]

/-- **Every row is in the new table**, as long as rows with one key are one row. -/
theorem mem_upserts (rows : List IndexCacheSnapshot)
    (hfun : ∀ r ∈ rows, ∀ r' ∈ rows, r.key = r'.key → r = r') :
    ∀ r ∈ rows, r ∈ rows.foldl (upsertRow existing) existing := by
  induction rows using List.reverseRecOn with
  | nil => exact fun r hr => absurd hr List.not_mem_nil
  | append_singleton rows r ih =>
    intro r₀ hr₀
    have hlast : r ∈ rows ++ [r] := List.mem_append_right _ List.mem_cons_self
    have hold : r₀ ∈ rows → r₀ ∈ rows.foldl (upsertRow existing) existing := ih
      (fun x hx x' hx' => hfun x (List.mem_append_left _ hx) x' (List.mem_append_left _ hx')) r₀
    rw [List.foldl_append, List.foldl_cons, List.foldl_nil]
    by_cases hr : r.key ∈ existing.map IndexCacheSnapshot.key
    · rw [upsertRow_cached existing _ hr, List.mem_map]
      by_cases heq : r₀.key = r.key
      · -- the row with this key in the table so far is overwritten by it
        obtain rfl := hfun r₀ hr₀ r hlast heq
        have hkey : r₀.key ∈ (rows.foldl (upsertRow existing) existing).map
            IndexCacheSnapshot.key := by
          rw [map_key_upserts]
          exact List.mem_append_left _ hr
        obtain ⟨r', hr', hkey'⟩ := List.mem_map.mp hkey
        exact ⟨r', hr', if_pos hkey'⟩
      · have hmem : r₀ ∈ rows := by
          rcases List.mem_append.mp hr₀ with hmem | hmem
          · exact hmem
          · exact absurd (congrArg _ (List.mem_singleton.mp hmem)) heq
        exact ⟨r₀, hold hmem, if_neg heq⟩
    · rw [upsertRow_fresh existing _ hr]
      rcases List.mem_append.mp hr₀ with hmem | hmem
      · exact List.mem_append_left _ (hold hmem)
      · exact List.mem_append_right _ hmem

/-- **No other row is touched.** -/
theorem filter_upserts (p : ℤ × Str × Str × Str × Str → Bool) (rows : List IndexCacheSnapshot)
    (hp : ∀ r ∈ rows, p r.key = false) :
    (rows.foldl (upsertRow existing) existing).filter (fun r => p r.key) =
      existing.filter fun r => p r.key := by
  induction rows using List.reverseRecOn with
  | nil => rfl
  | append_singleton rows r ih =>
    have hr : p r.key = false := hp r (List.mem_append_right _ List.mem_cons_self)
    rw [List.foldl_append, List.foldl_cons, List.foldl_nil,
      ← ih fun x hx => hp x (List.mem_append_left _ hx)]
    by_cases hcached : r.key ∈ existing.map IndexCacheSnapshot.key
    · rw [upsertRow_cached existing _ hcached, List.filter_map]
      have hkeep : ((fun r' : IndexCacheSnapshot => p r'.key) ∘
          fun r' => if r'.key = r.key then r else r') = fun r' => p r'.key :=
        funext fun r' => congrArg p (key_update r r')
      rw [hkeep]
      refine (List.map_congr_left fun r' hr' => if_neg fun heq => ?_).trans (List.map_id _)
      have hfalse := (List.mem_filter.mp hr').2
      rw [heq, hr] at hfalse
      cases hfalse
    · rw [upsertRow_fresh existing _ hcached, List.filter_append]
      simp [hr]

end Upserts

/-! ## 2. The snapshot

`Upserted` is what the loop is for: afterwards each state and mnemonic has one row, which carries
the state, and every other row is as it was.  `SnapshotUpserts` adds that the transaction commits.
-/

/-- The states of one server. -/
def ownStates (serverId : ℤ) (states : List LogState) : List LogState :=
  states.filter fun s => decide (s.serverId = serverId)

/-- `_snapshot_index_state`: the states of this server in one transaction.  `takes` says which rows
the columns of the database can hold; `none` is a transaction that has been rolled back. -/
def snapshotIndexState (takes : IndexCacheSnapshot → Bool) (serverId : ℤ) (db : Database)
    (states : List LogState) : Option Database :=
  let states := ownStates serverId states
  if states = [] then some db
  else if (states.flatMap stateRows).all takes then (db.commitSnapshot states).toOption
  else none

/-- The key of a state's row for a mnemonic. -/
def LogState.rowKey (s : LogState) (mnem : Str) : ℤ × Str × Str × Str × Str :=
  (s.serverId, s.wellUid, s.wellboreUid, s.logUid, mnem)

/-- What a row holds of a state. -/
structure Carries (r : IndexCacheSnapshot) (s : LogState) : Prop where
  cursor : cursorFromSnap true r s.indexType = s.lastIndex
  direction : r.direction = s.direction.value
  indexType : r.indexType = s.indexType.value
  uom : r.uom = s.indexUom

/-- The keys that a snapshot is about: the states of this server with a cursor, and their non-empty
mnemonics. -/
def snapshotKeys (serverId : ℤ) (states : List LogState) : List (ℤ × Str × Str × Str × Str) :=
  (states.filter fun s => decide (s.serverId = serverId ∧ s.lastIndex ≠ none)).flatMap fun s =>
    (savedMnemonics s).map s.rowKey

/-- The table after a correct upsert: one row for each state and mnemonic, which carries the state,
and every other row as it was. -/
structure Upserted (serverId : ℤ) (states : List LogState) (before after : Database) : Prop where
  saved : ∀ s ∈ states, s.serverId = serverId → s.lastIndex ≠ none → ∀ mnem ∈ savedMnemonics s,
    ∃ r, after.indexCache.filter (fun r => decide (r.key = s.rowKey mnem)) = [r] ∧ Carries r s
  others : after.indexCache.filter (fun r => decide (r.key ∉ snapshotKeys serverId states)) =
    before.indexCache.filter fun r => decide (r.key ∉ snapshotKeys serverId states)
  samples : after.curveSamples = before.curveSamples

/-- The snapshot commits, and it is a correct upsert. -/
def SnapshotUpserts (takes : IndexCacheSnapshot → Bool) (serverId : ℤ) (db : Database)
    (states : List LogState) : Prop :=
  ∃ after, snapshotIndexState takes serverId db states = some after ∧
    Upserted serverId states db after

/-- A cursor that has a column: an instant for time logs, a number for the others. -/
def HasColumn (indexType : IndexType) (last : Value) : Prop :=
  if indexType.isTime then ∃ t, last = .dt t else ∃ x, last = .num x

/-- What a snapshot needs of a state and one of its mnemonics: the cursor has a column, the database
takes the row, and it has one already if the mnemonic is repeated. -/
structure Storable (takes : IndexCacheSnapshot → Bool) (existing : List IndexCacheSnapshot)
    (s : LogState) (last : Value) (mnem : Str) : Prop where
  column : HasColumn s.indexType last
  taken : takes (snapRow s last mnem) = true
  cached : 1 < (savedMnemonics s).count mnem →
    s.rowKey mnem ∈ existing.map IndexCacheSnapshot.key

/-- A row carries its state exactly if the cursor has a column. -/
theorem carries_snapRow_iff {s : LogState} {last : Value} (hlast : s.lastIndex = some last)
    (mnem : Str) : Carries (snapRow s last mnem) s ↔ HasColumn s.indexType last := by
  have hcursor : cursorFromSnap true (snapRow s last mnem) s.indexType = s.lastIndex ↔
      HasColumn s.indexType last := by
    rw [hlast, cursorFromSnap, snapRow, HasColumn]
    cases ht : s.indexType.isTime <;> cases last <;>
      simp [indexColumns, asFloat, asDatetime, ht]
  exact ⟨fun h => hcursor.mp h.cursor, fun h => ⟨hcursor.mpr h, rfl, rfl, rfl⟩⟩

/-! ## 3. The rows of distinct logs

States have distinct keys, since the store keeps them in a dictionary.  So two rows with one key
are of one state and one mnemonic, and only a mnemonic that is listed twice makes two of them. -/

section Rows

variable {states : List LogState}

/-- The rows of a state are those of its saved mnemonics, if it has a cursor. -/
theorem mem_stateRows_iff {s : LogState} {r : IndexCacheSnapshot} :
    r ∈ stateRows s ↔ ∃ last, s.lastIndex = some last ∧
      ∃ mnem ∈ savedMnemonics s, snapRow s last mnem = r := by
  cases hlast : s.lastIndex with
  | none => simp [stateRows, hlast]
  | some last => simp [stateRows_eq hlast]

theorem key_snapRow (s : LogState) (last : Value) (mnem : Str) :
    (snapRow s last mnem).key = s.rowKey mnem := rfl

theorem rowKey_injective (s : LogState) : Function.Injective s.rowKey := by
  intro m m' heq
  simpa [LogState.rowKey] using heq

/-- The key of a row has the key of the log in it. -/
theorem key_of_rowKey_eq {s s' : LogState} {m m' : Str} (h : s.rowKey m = s'.rowKey m') :
    s.key = s'.key := by
  simp only [LogState.rowKey, Prod.mk.injEq] at h
  simp only [LogState.key, h]

/-- Of states with distinct keys, the key of a row gives its state. -/
theorem state_of_rowKey (hkeys : states.Pairwise fun s s' => s.key ≠ s'.key) {s s' : LogState}
    (hs : s ∈ states) (hs' : s' ∈ states) {m m' : Str} (h : s.rowKey m = s'.rowKey m') : s = s' := by
  have hsymm : Std.Symm fun s s' : LogState => s.key ≠ s'.key := ⟨fun _ _ hne => hne.symm⟩
  by_contra hne
  exact hkeys.forall hs hs' hne (key_of_rowKey_eq h)

/-- Rows with one key are one row. -/
theorem stateRows_functional (hkeys : states.Pairwise fun s s' => s.key ≠ s'.key) :
    ∀ r ∈ states.flatMap stateRows, ∀ r' ∈ states.flatMap stateRows, r.key = r'.key → r = r' := by
  intro r hr r' hr' heq
  obtain ⟨s, hs, hr⟩ := List.mem_flatMap.mp hr
  obtain ⟨s', hs', hr'⟩ := List.mem_flatMap.mp hr'
  obtain ⟨last, hlast, mnem, -, rfl⟩ := mem_stateRows_iff.mp hr
  obtain ⟨last', hlast', mnem', -, rfl⟩ := mem_stateRows_iff.mp hr'
  obtain rfl := state_of_rowKey hkeys hs hs' heq
  obtain rfl := rowKey_injective s heq
  obtain rfl := Option.some.inj (hlast.symm.trans hlast')
  rfl

/-- The inserted keys of one state. -/
theorem map_key_freshRows {s : LogState} {last : Value} (hlast : s.lastIndex = some last)
    (existing : List IndexCacheSnapshot) :
    (freshRows existing (stateRows s)).map IndexCacheSnapshot.key =
      ((savedMnemonics s).filter fun m =>
        decide (s.rowKey m ∉ existing.map IndexCacheSnapshot.key)).map s.rowKey := by
  rw [freshRows, stateRows_eq hlast, List.filter_map, List.map_map]
  rfl

/-- A state inserts no key twice, exactly if each mnemonic that it repeats has its row. -/
theorem nodup_freshRows_iff {s : LogState} {last : Value} (hlast : s.lastIndex = some last)
    (existing : List IndexCacheSnapshot) :
    ((freshRows existing (stateRows s)).map IndexCacheSnapshot.key).Nodup ↔
      ∀ m ∈ savedMnemonics s, 1 < (savedMnemonics s).count m →
        s.rowKey m ∈ existing.map IndexCacheSnapshot.key := by
  rw [map_key_freshRows hlast, List.nodup_map_iff (rowKey_injective s), List.nodup_iff_count_le_one]
  constructor
  · intro h m hm hcount
    by_contra hfresh
    have hle := h m
    rw [List.count_filter (by simpa using hfresh)] at hle
    omega
  · intro h m
    by_cases hm : m ∈ (savedMnemonics s).filter fun m =>
        decide (s.rowKey m ∉ existing.map IndexCacheSnapshot.key)
    · obtain ⟨hmem, hfresh⟩ := List.mem_filter.mp hm
      refine Nat.le_trans (List.filter_sublist.count_le m) ?_
      by_contra hmany
      exact of_decide_eq_true hfresh (h m hmem (by omega))
    · rw [List.count_eq_zero.mpr hm]
      exact Nat.zero_le 1

/-- States of distinct logs insert no key twice exactly if none of them does. -/
theorem nodup_freshRows_flatMap (existing : List IndexCacheSnapshot)
    (hkeys : states.Pairwise fun s s' => s.key ≠ s'.key) :
    ((freshRows existing (states.flatMap stateRows)).map IndexCacheSnapshot.key).Nodup ↔
      ∀ s ∈ states, ((freshRows existing (stateRows s)).map IndexCacheSnapshot.key).Nodup := by
  rw [freshRows, List.filter_flatMap, List.map_flatMap, List.nodup_flatMap]
  refine and_iff_left (hkeys.imp fun {s s'} hne => ?_)
  intro k hk hk'
  obtain ⟨r, hr, rfl⟩ := List.mem_map.mp hk
  obtain ⟨r', hr', heq⟩ := List.mem_map.mp hk'
  obtain ⟨last, -, mnem, -, rfl⟩ := mem_stateRows_iff.mp (List.mem_filter.mp hr).1
  obtain ⟨last', -, mnem', -, rfl⟩ := mem_stateRows_iff.mp (List.mem_filter.mp hr').1
  exact hne (key_of_rowKey_eq heq).symm

end Rows

/-! ## 4. The upsert

The two directions meet in `snapshotIndexState_eq_some`, which says when the transaction commits
and what it leaves.  The rest is to compare that with `Upserted`. -/

/-- The states of a server are those with its id. -/
theorem mem_ownStates {serverId : ℤ} {states : List LogState} {s : LogState} :
    s ∈ ownStates serverId states ↔ s ∈ states ∧ s.serverId = serverId := by
  rw [ownStates, List.mem_filter, decide_eq_true_eq]

/-- The keys of the rows of a snapshot. -/
theorem mem_snapshotKeys_iff {serverId : ℤ} {states : List LogState}
    {k : ℤ × Str × Str × Str × Str} :
    k ∈ snapshotKeys serverId states ↔
      ∃ r ∈ (ownStates serverId states).flatMap stateRows, r.key = k := by
  simp only [snapshotKeys, List.mem_flatMap, List.mem_filter, decide_eq_true_eq, List.mem_map]
  constructor
  · rintro ⟨s, ⟨hs, hserver, hsome⟩, m, hm, rfl⟩
    obtain ⟨last, hlast⟩ := Option.ne_none_iff_exists'.mp hsome
    exact ⟨snapRow s last m, ⟨s, mem_ownStates.mpr ⟨hs, hserver⟩,
      mem_stateRows_iff.mpr ⟨last, hlast, m, hm, rfl⟩⟩, rfl⟩
  · rintro ⟨r, ⟨s, hs, hr⟩, rfl⟩
    obtain ⟨last, hlast, m, hm, rfl⟩ := mem_stateRows_iff.mp hr
    obtain ⟨hs, hserver⟩ := mem_ownStates.mp hs
    exact ⟨s, ⟨hs, hserver, by rw [hlast]; exact Option.some_ne_none last⟩, m, hm, rfl⟩

theorem pairwise_ownStates (serverId : ℤ) {states : List LogState}
    (hkeys : states.Pairwise fun s s' => s.key ≠ s'.key) :
    (ownStates serverId states).Pairwise fun s s' => s.key ≠ s'.key :=
  hkeys.filter fun s : LogState => decide (s.serverId = serverId)

/-- The new table satisfies `uq_index_cache` exactly if no state inserts a key twice. -/
theorem nodup_map_key_snapshotTable {states : List LogState} {existing : List IndexCacheSnapshot}
    (hunique : (existing.map IndexCacheSnapshot.key).Nodup)
    (hkeys : states.Pairwise fun s s' => s.key ≠ s'.key) :
    ((snapshotTable states existing).map IndexCacheSnapshot.key).Nodup ↔
      ∀ s ∈ states, ((freshRows existing (stateRows s)).map IndexCacheSnapshot.key).Nodup := by
  rw [snapshotTable, map_key_upserts, List.nodup_append, ← nodup_freshRows_flatMap existing hkeys]
  refine ⟨fun h => h.2.1, fun h => ⟨hunique, h, fun k hk k' hk' heq => ?_⟩⟩
  -- the key of an inserted row is not in the table
  obtain ⟨r, hr, rfl⟩ := List.mem_map.mp hk'
  exact of_decide_eq_true (List.mem_filter.mp hr).2 (heq ▸ hk)

/-- **When a snapshot commits, and what it commits.**  It commits if no two rows of the new table
have one key and the database takes every row; then the table is the old one with the updates, and
the insertions behind it. -/
theorem snapshotIndexState_eq_some {takes : IndexCacheSnapshot → Bool} {serverId : ℤ}
    {db after : Database} {states : List LogState}
    (hunique : (db.indexCache.map IndexCacheSnapshot.key).Nodup)
    (hkeys : states.Pairwise fun s s' => s.key ≠ s'.key) :
    snapshotIndexState takes serverId db states = some after ↔
      (∀ s ∈ ownStates serverId states, (∀ r ∈ stateRows s, takes r = true) ∧
        ((freshRows db.indexCache (stateRows s)).map IndexCacheSnapshot.key).Nodup) ∧
      after = { db with
        indexCache := snapshotTable (ownStates serverId states) db.indexCache } := by
  have hnodup := nodup_map_key_snapshotTable hunique (pairwise_ownStates serverId hkeys)
  have hall : ((ownStates serverId states).flatMap stateRows).all takes = true ↔
      ∀ s ∈ ownStates serverId states, ∀ r ∈ stateRows s, takes r = true := by
    simp only [List.all_eq_true, List.mem_flatMap, forall_exists_index, and_imp]
    exact ⟨fun h s hs r hr => h r s hs hr, fun h r s hs hr => h s hs r hr⟩
  rw [forall₂_and, ← hall, ← hnodup]
  simp only [snapshotIndexState]
  by_cases hnil : ownStates serverId states = []
  · rw [if_pos hnil, hnil]
    simp only [snapshotTable, List.flatMap_nil, List.foldl_nil, List.all_nil, true_and, hunique]
    exact ⟨fun h => (Option.some.inj h).symm, fun h => h ▸ rfl⟩
  · rw [if_neg hnil, Database.commitSnapshot]
    by_cases htakes : ((ownStates serverId states).flatMap stateRows).all takes = true
    · rw [if_pos htakes]
      by_cases hok : ((snapshotTable (ownStates serverId states) db.indexCache).map
          IndexCacheSnapshot.key).Nodup
      · rw [if_pos hok]
        simp only [htakes, hok, and_self, true_and, Except.toOption, Option.some.injEq]
        exact eq_comm
      · rw [if_neg hok]
        simp [Except.toOption, hok]
    · rw [if_neg htakes]
      simp [htakes]

/-- In a table with distinct keys, the rows with the key of a row are this row. -/
theorem filter_key_of_mem {table : List IndexCacheSnapshot} {r : IndexCacheSnapshot}
    (hnodup : (table.map IndexCacheSnapshot.key).Nodup) (hr : r ∈ table) :
    table.filter (fun r' => decide (r'.key = r.key)) = [r] := by
  obtain ⟨pre, post, rfl⟩ := List.append_of_mem hr
  rw [List.map_append, List.map_cons, List.nodup_middle, List.nodup_cons, ← List.map_append] at hnodup
  have hnone : ∀ r' ∈ pre ++ post, ¬decide (r'.key = r.key) = true := by
    intro r' hr' heq
    exact hnodup.1 (List.mem_map.mpr ⟨r', hr', of_decide_eq_true heq⟩)
  have hself : decide (r.key = r.key) = true := decide_eq_true rfl
  rw [List.filter_append, List.filter_cons, if_pos hself,
    List.filter_eq_nil_iff.mpr fun r' hr' => hnone r' (List.mem_append_left _ hr'),
    List.filter_eq_nil_iff.mpr fun r' hr' => hnone r' (List.mem_append_right _ hr'),
    List.nil_append]

/-- The row of a state and a mnemonic in the committed table. -/
theorem filter_snapshotTable {states : List LogState} {existing : List IndexCacheSnapshot}
    (hkeys : states.Pairwise fun s s' => s.key ≠ s'.key)
    (hnodup : ((snapshotTable states existing).map IndexCacheSnapshot.key).Nodup)
    {s : LogState} (hs : s ∈ states) {last : Value} (hlast : s.lastIndex = some last) {mnem : Str}
    (hmnem : mnem ∈ savedMnemonics s) :
    (snapshotTable states existing).filter (fun r => decide (r.key = s.rowKey mnem)) =
      [snapRow s last mnem] := by
  have hrow : snapRow s last mnem ∈ states.flatMap stateRows :=
    List.mem_flatMap.mpr ⟨s, hs, mem_stateRows_iff.mpr ⟨last, hlast, mnem, hmnem, rfl⟩⟩
  rw [← key_snapRow s last mnem]
  exact filter_key_of_mem hnodup (mem_upserts existing _ (stateRows_functional hkeys) _ hrow)

/-- A correct upsert has a column for every cursor. -/
theorem SnapshotUpserts.hasColumn {takes : IndexCacheSnapshot → Bool} {serverId : ℤ} {db : Database}
    {states : List LogState} (h : SnapshotUpserts takes serverId db states)
    (hunique : (db.indexCache.map IndexCacheSnapshot.key).Nodup)
    (hkeys : states.Pairwise fun s s' => s.key ≠ s'.key) {s : LogState} (hs : s ∈ states)
    (hserver : s.serverId = serverId) {last : Value} (hlast : s.lastIndex = some last) {mnem : Str}
    (hmnem : mnem ∈ savedMnemonics s) : HasColumn s.indexType last := by
  obtain ⟨after, hsome, hafter⟩ := h
  obtain ⟨hall, rfl⟩ := (snapshotIndexState_eq_some hunique hkeys).mp hsome
  have hown := pairwise_ownStates serverId hkeys
  have hnodup := (nodup_map_key_snapshotTable hunique hown).mpr fun s hs => (hall s hs).2
  obtain ⟨r, hr, hcarries⟩ := hafter.saved s hs hserver
    (by rw [hlast]; exact Option.some_ne_none last) mnem hmnem
  have hrow := filter_snapshotTable hown hnodup (mem_ownStates.mpr ⟨hs, hserver⟩) hlast hmnem
  obtain rfl := List.singleton_inj.mp (hr.symm.trans hrow)
  exact (carries_snapRow_iff hlast mnem).mp hcarries

/-- **The snapshot is a correct upsert exactly if every cursor has a column, and every mnemonic
that a header repeats has its row already.**

A repeated mnemonic whose row is there is harmless, as the row is updated twice with the same
values.  A log whose header has repeated a mnemonic from the start never gets that row, so for it
the condition can only come true by the hand of someone else.  A cursor without a column does not
keep the snapshot from being committed; its rows are written, and carry null. -/
theorem snapshot_upserts_iff (takes : IndexCacheSnapshot → Bool) (serverId : ℤ) {db : Database}
    {states : List LogState} (hunique : (db.indexCache.map IndexCacheSnapshot.key).Nodup)
    (hkeys : states.Pairwise fun s s' => s.key ≠ s'.key) :
    SnapshotUpserts takes serverId db states ↔
      ∀ s ∈ states, s.serverId = serverId → ∀ last, s.lastIndex = some last →
        ∀ mnem ∈ savedMnemonics s, Storable takes db.indexCache s last mnem := by
  have hown := pairwise_ownStates serverId hkeys
  have hnodup := nodup_map_key_snapshotTable hunique hown
  constructor
  · intro h s hs hserver last hlast mnem hmnem
    have hcolumn := h.hasColumn hunique hkeys hs hserver hlast hmnem
    obtain ⟨after, hsome, -⟩ := h
    obtain ⟨hall, -⟩ := (snapshotIndexState_eq_some hunique hkeys).mp hsome
    obtain ⟨htakes, hfresh⟩ := hall s (mem_ownStates.mpr ⟨hs, hserver⟩)
    exact ⟨hcolumn, htakes _ (mem_stateRows_iff.mpr ⟨last, hlast, mnem, hmnem, rfl⟩),
      (nodup_freshRows_iff hlast _).mp hfresh mnem hmnem⟩
  · intro h
    have hall : ∀ s ∈ ownStates serverId states, (∀ r ∈ stateRows s, takes r = true) ∧
        ((freshRows db.indexCache (stateRows s)).map IndexCacheSnapshot.key).Nodup := by
      intro s hs
      obtain ⟨hs, hserver⟩ := mem_ownStates.mp hs
      cases hlast : s.lastIndex with
      | none => simp [stateRows, hlast, freshRows]
      | some last =>
        refine ⟨fun r hr => ?_, (nodup_freshRows_iff hlast _).mpr fun m hm =>
          (h s hs hserver last hlast m hm).cached⟩
        rw [stateRows_eq hlast] at hr
        obtain ⟨m, hm, rfl⟩ := List.mem_map.mp hr
        exact (h s hs hserver last hlast m hm).taken
    refine ⟨_, (snapshotIndexState_eq_some hunique hkeys).mpr ⟨hall, rfl⟩, ?_, ?_, rfl⟩
    · intro s hs hserver hsome mnem hmnem
      obtain ⟨last, hlast⟩ := Option.ne_none_iff_exists'.mp hsome
      exact ⟨_, filter_snapshotTable hown (hnodup.mpr fun s hs => (hall s hs).2)
        (mem_ownStates.mpr ⟨hs, hserver⟩) hlast hmnem,
        (carries_snapRow_iff hlast mnem).mpr (h s hs hserver last hlast mnem hmnem).column⟩
    · refine filter_upserts db.indexCache
        (fun k => decide (k ∉ snapshotKeys serverId states)) _ fun r hr => ?_
      simpa using mem_snapshotKeys_iff.mpr ⟨r, hr, rfl⟩

/-! ## 5. States from headers

What the condition comes to for states that the scheduler has made.  They are saved under the
mnemonics of their headers, and only the text of an index cell that cannot be read has no column. -/

/-- A log state that the scheduler has built from a parsed header, whatever the header, with no
cursor yet or with one that it has decoded. -/
structure FromHeader (serverId : ℤ) (s : LogState) : Prop where
  header : ∃ el h, parseLogHeader el = .ok h ∧ s = { stateFromHeader serverId h with
    lastIndex := s.lastIndex
    objectGrowing := s.objectGrowing }
  cursor : ∀ v, s.lastIndex = some v →
    ∃ nulls raw, decodeIndex s.indexType nulls raw = .ok (some v)

namespace FromHeader

variable {serverId : ℤ} {s : LogState}

theorem server (h : FromHeader serverId s) : s.serverId = serverId := by
  obtain ⟨el, hd, -, heq⟩ := h.header
  rw [heq]
  rfl

/-- A state without mnemonics has no index mnemonic, so a snapshot saves its mnemonics and no
others. -/
theorem savedMnemonics_eq (h : FromHeader serverId s) :
    savedMnemonics s = s.mnemonics.filter (· ≠ []) := by
  obtain ⟨el, hd, -, heq⟩ := h.header
  rw [savedMnemonics]
  split
  · rename_i hnil
    have hindex : s.indexMnemonic = [] := by
      rw [heq] at hnil ⊢
      simp only [stateFromHeader] at hnil ⊢
      by_contra hne
      split at hnil <;> cases hnil
    simp [hnil, hindex]
  · rfl

/-- Only the text of an unreadable index has no column. -/
theorem hasColumn_iff (h : FromHeader serverId s) {last : Value} (hlast : s.lastIndex = some last) :
    HasColumn s.indexType last ↔ ∀ w, last ≠ .text w := by
  obtain ⟨nulls, raw, hdec⟩ := h.cursor last hlast
  have hdec := decoded_of_decodeIndex hdec
  rw [HasColumn]
  cases last with
  | num x =>
    have ht : s.indexType.isTime = false := hdec
    simp [ht]
  | text w => simp [hdec.1]
  | dt t => simp [hdec.1]

end FromHeader

/-- A header that lists a curve twice. -/
def repeatedElem : LogElem :=
  { headerElem "L-3".toList .measuredDepth "DEPTH".toList "GR".toList with
    logCurveInfo := [curveElem "DEPTH".toList, curveElem "GR".toList, curveElem "GR".toList] }

/-- Its state after a poll. -/
def repeatedState : LogState :=
  { polledState "L-3".toList .measuredDepth "DEPTH".toList "GR".toList (.num (.ofRatio 10 1)) with
    mnemonics := ["DEPTH".toList, "GR".toList, "GR".toList] }

theorem fromHeader_repeatedState : FromHeader 1 repeatedState := by
  refine ⟨⟨repeatedElem, _, rfl, rfl⟩, fun v hv => ?_⟩
  obtain rfl := Option.some.inj hv
  exact ⟨commonNullSentinels, "10".toList, by decide +kernel⟩

theorem Built.fromHeader {serverId : ℤ} {s : LogState} (h : Built serverId s) :
    FromHeader serverId s := by
  obtain ⟨el, hd, hparse, -, heq⟩ := h.header
  obtain ⟨last, nulls, raw, hlast, hdec⟩ := h.cursor
  refine ⟨⟨el, hd, hparse, heq⟩, fun v hv => ?_⟩
  obtain rfl := Option.some.inj (hlast.symm.trans hv)
  exact ⟨nulls, raw, hdec⟩

/-- The table after the repeated curve has got its row. -/
def repeatedCache : List IndexCacheSnapshot :=
  [snapRow repeatedState (.num (.ofRatio 5 1)) "GR".toList]

/-- With the row in the table the snapshot is correct. -/
theorem snapshot_upserts_iff_repeated :
    SnapshotUpserts (fun _ => true) 1 ⟨[], repeatedCache⟩ [depthState, repeatedState] ↔
      ∀ s ∈ [depthState, repeatedState], s.serverId = 1 → ∀ last, s.lastIndex = some last →
        ∀ mnem ∈ savedMnemonics s, Storable (fun _ => true) repeatedCache s last mnem :=
  snapshot_upserts_iff (fun _ => true) 1 (by decide +kernel) (by decide +kernel)

/-- **One odd header keeps every log from being saved**, and a cursor that is a text is saved as
null. -/
theorem snapshot_rolled_back :
    (FromHeader 1 depthState ∧ FromHeader 1 repeatedState ∧
      snapshotIndexState (fun _ => true) 1 ⟨[], []⟩ [depthState, repeatedState] = none ∧
      ¬SnapshotUpserts (fun _ => true) 1 ⟨[], []⟩ [depthState, repeatedState]) ∧
    FromHeader 1 textState ∧ ¬SnapshotUpserts (fun _ => true) 1 ⟨[], []⟩ [textState] := by
  have hnone : snapshotIndexState (fun _ => true) 1 ⟨[], []⟩ [depthState, repeatedState] = none := by
    decide +kernel
  refine ⟨⟨built_depthState.fromHeader, fromHeader_repeatedState, hnone, ?_⟩,
    built_textState.fromHeader, ?_⟩
  · rintro ⟨after, hsome, -⟩
    exact absurd (hnone.symm.trans hsome) (by simp)
  · intro h
    have hlast : textState.lastIndex = some (.text "10 m".toList) := rfl
    have hmnem : "GR".toList ∈ savedMnemonics textState := by decide +kernel
    have hcolumn := h.hasColumn (by decide +kernel) (by decide +kernel)
      (List.mem_singleton_self textState) rfl hlast hmnem
    exact (built_textState.fromHeader.hasColumn_iff rfl).mp hcolumn _ rfl

end WitsmlViewer
