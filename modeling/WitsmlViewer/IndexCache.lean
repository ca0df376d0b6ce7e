/-
# The index cache across a restart (`_snapshot_index_state`, `_load_index_snapshot`)

A snapshot spreads each log state over one row for each of its mnemonics; a restart gathers the
rows of each log again and lets the first of them speak for all.  Which mnemonic is the index is
not stored: the restored state takes the alphabetically first one.

`snapshot_restore_iff`: a restart gives every log its state back, and asks the server what it would
have been asked without one, exactly if the index mnemonic of each log is the least of its
mnemonics, and its cursor is not a text.

Both halves of the condition are about the format.  The first row of a group is as good as any for
the cursor, the type and the direction, which all rows of the group repeat; but the mnemonic of a
row is its own, and a set that has been sorted forgets which one came first.  And the columns for
the cursor are a number and an instant, so a text finds no column and comes back as null.

The database returns the rows in any order, so the statement is over all of them.  Nothing depends
on it: the groups are gathered by key, and the mnemonics of a group are sorted anyway.
-/
import WitsmlViewer.Py.Timestamp
import WitsmlViewer.Scheduler

namespace WitsmlViewer

open Py

/-! ## 1. States that a snapshot finds

`Built` is what the scheduler makes: a state from a header with distinct mnemonics, whose cursor is
an index that a poll has decoded.  A header may repeat a mnemonic; what that does to a snapshot is
the subject of `Snapshots`, where it keeps the transaction from being committed. -/

/-- A log state that the scheduler has built: from a parsed header with distinct mnemonics, with an
index that it has decoded as its cursor. -/
structure Built (serverId : ℤ) (s : LogState) : Prop where
  header : ∃ el h, parseLogHeader el = .ok h ∧ h.mnemonics.Nodup ∧
    s = { stateFromHeader serverId h with
      lastIndex := s.lastIndex
      objectGrowing := s.objectGrowing }
  cursor : ∃ v nulls raw, s.lastIndex = some v ∧ decodeIndex s.indexType nulls raw = .ok (some v)

/-- The mnemonics of a state are those of its header, without the empty ones. -/
theorem stateFromHeader_mnemonics (serverId : ℤ) {h : LogHeader} (hnodup : h.mnemonics.Nodup) :
    (stateFromHeader serverId h).mnemonics.Nodup ∧
      ((stateFromHeader serverId h).indexMnemonic ≠ [] →
        (stateFromHeader serverId h).indexMnemonic ∈ (stateFromHeader serverId h).mnemonics) := by
  simp only [stateFromHeader]
  generalize (h.indexCurve.filter (· ≠ [])).getD (h.mnemonics.headD []) = index
  split
  · refine ⟨List.nodup_cons.mpr ⟨?_, hnodup.filter _⟩, fun _ => List.mem_cons_self⟩
    simp
  · rename_i hout
    split
    · rename_i hne
      have hnew : index ∉ h.mnemonics := fun hmem => hout ⟨hne, hmem⟩
      exact ⟨List.nodup_cons.mpr ⟨hnew, hnodup⟩, fun _ => List.mem_cons_self⟩
    · rename_i hempty
      exact ⟨hnodup, fun hne => absurd hne hempty⟩

namespace Built

variable {serverId : ℤ} {s : LogState}

theorem server (h : Built serverId s) : s.serverId = serverId := by
  obtain ⟨el, hd, -, -, heq⟩ := h.header
  rw [heq]
  rfl

theorem nodup (h : Built serverId s) : s.mnemonics.Nodup := by
  obtain ⟨el, hd, -, hnodup, heq⟩ := h.header
  rw [heq]
  exact (stateFromHeader_mnemonics serverId hnodup).1

theorem index_mem (h : Built serverId s) (hne : s.indexMnemonic ≠ []) :
    s.indexMnemonic ∈ s.mnemonics := by
  obtain ⟨el, hd, -, hnodup, heq⟩ := h.header
  rw [heq] at hne ⊢
  exact (stateFromHeader_mnemonics serverId hnodup).2 hne

/-- The cursor of a built state is an index that `decode_index` has returned. -/
theorem decoded (h : Built serverId s) : ∃ v, s.lastIndex = some v ∧ v.Decoded s.indexType := by
  obtain ⟨v, nulls, raw, hlast, hdec⟩ := h.cursor
  exact ⟨v, hlast, decoded_of_decodeIndex hdec⟩

end Built

/-! ## 2. The rows of a snapshot

A snapshot writes no row for an empty mnemonic, and one for the index mnemonic alone where there
are no others. -/

/-- The mnemonics that a snapshot has rows for. -/
def savedMnemonics (s : LogState) : List Str :=
  (if s.mnemonics = [] then [s.indexMnemonic] else s.mnemonics).filter (· ≠ [])

/-- The row of one mnemonic. -/
def snapRow (s : LogState) (last : Value) (mnem : Str) : IndexCacheSnapshot where
  serverId := s.serverId
  wellUid := s.wellUid
  wellboreUid := s.wellboreUid
  logUid := s.logUid
  mnemonic := mnem
  lastIndexFloat := (indexColumns s.indexType last).1
  lastIndexDt := (indexColumns s.indexType last).2
  uom := s.indexUom
  direction := s.direction.value
  indexType := s.indexType.value

theorem stateRows_eq {s : LogState} {last : Value} (h : s.lastIndex = some last) :
    stateRows s = (savedMnemonics s).map (snapRow s last) := by
  rw [stateRows, h]
  rfl

theorem nodup_savedMnemonics {s : LogState} (h : s.mnemonics.Nodup) : (savedMnemonics s).Nodup := by
  rw [savedMnemonics]
  refine List.Nodup.filter _ ?_
  split
  · exact List.nodup_singleton _
  · exact h

theorem logKey_of_mem_stateRows {s : LogState} {r : IndexCacheSnapshot} (hr : r ∈ stateRows s) :
    r.logKey = s.key ∧ r.serverId = s.serverId := by
  cases hlast : s.lastIndex with
  | none =>
    rw [stateRows, hlast] at hr
    simp at hr
  | some last =>
    rw [stateRows_eq hlast] at hr
    obtain ⟨mnem, -, rfl⟩ := List.mem_map.mp hr
    exact ⟨rfl, rfl⟩

/-- Into an empty table every row is inserted. -/
theorem snapshotTable_empty (states : List LogState) :
    snapshotTable states [] = states.flatMap stateRows := by
  have hfold : ∀ rows table : List IndexCacheSnapshot,
      rows.foldl (upsertRow []) table = table ++ rows := by
    intro rows
    induction rows with
    | nil => exact fun table => (List.append_nil table).symm
    | cons r rows ih =>
      intro table
      rw [List.foldl_cons, ih]
      simp [upsertRow]
  rw [snapshotTable, hfold, List.nil_append]

/-- The rows of distinct logs have distinct keys, so that `uq_index_cache` holds of the table. -/
theorem nodup_snapshotTable {serverId : ℤ} : ∀ {states : List LogState},
    (∀ s ∈ states, Built serverId s) → states.Pairwise (fun s s' => s.key ≠ s'.key) →
      ((states.flatMap stateRows).map IndexCacheSnapshot.key).Nodup
  | [], _, _ => List.nodup_nil
  | s :: states, hbuilt, hkeys => by
    obtain ⟨hhead, htail⟩ := List.pairwise_cons.mp hkeys
    have hrest := nodup_snapshotTable (fun x hx => hbuilt x (List.mem_cons_of_mem _ hx)) htail
    obtain ⟨last, hlast, -⟩ := (hbuilt s List.mem_cons_self).decoded
    rw [List.flatMap_cons, List.map_append]
    refine List.nodup_append.mpr ⟨?_, hrest, ?_⟩
    · rw [stateRows_eq hlast, List.map_map]
      refine (nodup_savedMnemonics (hbuilt s List.mem_cons_self).nodup).map ?_
      intro m m' heq
      simpa [snapRow, IndexCacheSnapshot.key] using heq
    · intro k hk k' hk' heq
      obtain ⟨r, hr, rfl⟩ := List.mem_map.mp hk
      obtain ⟨r', hr', rfl⟩ := List.mem_map.mp hk'
      obtain ⟨x, hx, hr'⟩ := List.mem_flatMap.mp hr'
      refine hhead x hx ?_
      rw [← (logKey_of_mem_stateRows hr).1, ← (logKey_of_mem_stateRows hr').1]
      simp only [IndexCacheSnapshot.key, Prod.mk.injEq] at heq
      simp only [IndexCacheSnapshot.logKey, heq]

/-- The rows of one log among those of all. -/
theorem filter_flatMap_stateRows {states : List LogState} {s : LogState}
    (hkeys : states.Pairwise fun s s' => s.key ≠ s'.key) (hmem : s ∈ states) :
    (states.flatMap stateRows).filter (fun r => decide (r.logKey = s.key)) = stateRows s := by
  induction states with
  | nil => exact absurd hmem List.not_mem_nil
  | cons s' states ih =>
    obtain ⟨hhead, htail⟩ := List.pairwise_cons.mp hkeys
    have hown : (stateRows s').filter (fun r => decide (r.logKey = s'.key)) = stateRows s' :=
      List.filter_eq_self.mpr fun r hr => decide_eq_true (logKey_of_mem_stateRows hr).1
    have hother : ∀ x ∈ states, (stateRows x).filter (fun r => decide (r.logKey = s'.key)) = [] := by
      intro x hx
      refine List.filter_eq_nil_iff.mpr fun r hr => ?_
      rw [(logKey_of_mem_stateRows hr).1]
      simpa using (hhead x hx).symm
    rw [List.flatMap_cons, List.filter_append]
    rcases List.mem_cons.mp hmem with rfl | hmem
    · rw [hown, List.filter_flatMap]
      have hnil : states.flatMap (fun x => (stateRows x).filter
          (fun r => decide (r.logKey = s.key))) = [] :=
        List.flatMap_eq_nil_iff.mpr hother
      rw [hnil, List.append_nil]
    · have hnone : (stateRows s').filter (fun r => decide (r.logKey = s.key)) = [] := by
        refine List.filter_eq_nil_iff.mpr fun r hr => ?_
        rw [(logKey_of_mem_stateRows hr).1]
        simpa using hhead s hmem
      rw [hnone, List.nil_append, ih htail hmem]

/-- A row of the new table was there before, or is one of a state. -/
theorem mem_snapshotTable {states : List LogState} {existing : List IndexCacheSnapshot}
    {r : IndexCacheSnapshot} (hr : r ∈ snapshotTable states existing) :
    r ∈ existing ∨ ∃ s ∈ states, r ∈ stateRows s := by
  have hrows : ∀ (rows table : List IndexCacheSnapshot),
      r ∈ rows.foldl (upsertRow existing) table → r ∈ table ∨ r ∈ rows := by
    intro rows
    induction rows with
    | nil => exact fun table h => Or.inl h
    | cons r' rows ih =>
      intro table h
      rcases ih _ h with h | h
      · rw [upsertRow] at h
        split at h
        · obtain ⟨r₀, hr₀, heq⟩ := List.mem_map.mp h
          split at heq
          · exact Or.inr (heq ▸ List.mem_cons_self)
          · exact Or.inl (heq ▸ hr₀)
        · exact (List.mem_append.mp h).imp_right fun h => by
            rw [List.mem_singleton.mp h]
            exact List.mem_cons_self
      · exact Or.inr (List.mem_cons_of_mem _ h)
  rcases hrows _ existing hr with h | h
  · exact Or.inl h
  · exact Or.inr (List.mem_flatMap.mp h)

/-! ## 3. Loading

Loading groups the rows by log key and makes a state from each group.
`getLogState_loadIndexSnapshot` says it for one log: its state is made from its rows, and no row of
another log plays a part. -/

/-- **The rows of each log are gathered in the order they come.**  The source keeps a dictionary of
lists, and so does the model; the lemma reads it as a filter. -/
theorem groupByLog_spec (snaps : List IndexCacheSnapshot) :
    Dict.Distinct (groupByLog snaps) ∧ ∀ key, Dict.get? (groupByLog snaps) key =
      if snaps.filter (fun r => decide (r.logKey = key)) = [] then none
      else some (snaps.filter fun r => decide (r.logKey = key)) := by
  induction snaps using List.reverseRecOn with
  | nil => exact ⟨Dict.distinct_nil, fun key => rfl⟩
  | append_singleton snaps r ih =>
    obtain ⟨hdist, hget⟩ := ih
    have hstep : groupByLog (snaps ++ [r]) = Dict.set (groupByLog snaps) r.logKey
        ((Dict.get? (groupByLog snaps) r.logKey).getD [] ++ [r]) := by
      rw [groupByLog, List.foldl_append]
      rfl
    rw [hstep]
    refine ⟨Dict.distinct_set hdist, fun key => ?_⟩
    rw [Dict.get?_set, List.filter_append]
    by_cases hkey : r.logKey = key
    · subst hkey
      rw [if_pos rfl, hget]
      by_cases hnil : snaps.filter (fun x => decide (x.logKey = r.logKey)) = []
      · simp [hnil]
      · simp [hnil]
    · rw [if_neg hkey, hget]
      simp [hkey]

/-- The state of a log after the groups have been restored. -/
theorem getLogState_restore (keepsZone : Bool) (key : LogKey) :
    ∀ (perLog : Dict LogKey (List IndexCacheSnapshot)) (warm : RingBufferStore),
      Dict.Distinct perLog →
      (perLog.foldl (fun warm entry => match entry.2 with
        | [] => warm
        | head :: rest => warm.putLogState
            (restoredState keepsZone entry.1 head (head :: rest))) warm).getLogState key =
        match Dict.get? perLog key with
        | some (head :: rest) => some (restoredState keepsZone key head (head :: rest))
        | _ => warm.getLogState key
  | [], _, _ => rfl
  | (k, group) :: perLog, warm, hd => by
    obtain ⟨hhead, htail⟩ := List.pairwise_cons.mp hd
    rw [List.foldl_cons, getLogState_restore keepsZone key perLog _ htail]
    by_cases hk : k = key
    · subst hk
      -- no later group is of this log
      have hnone : Dict.get? perLog k = none := by
        cases hget : Dict.get? perLog k with
        | none => rfl
        | some v =>
          have hne := hhead _ (Dict.get?_mem (fun _ _ => eq_of_beq) hget)
          simp at hne
      rw [hnone]
      cases group with
      | nil => simp [Dict.get?]
      | cons head rest =>
        simp only [Dict.get?, beq_self_eq_true, if_true]
        rw [RingBufferStore.getLogState_putLogState]
        exact if_pos rfl
    · have hbeq : (k == key) = false := by simpa using hk
      simp only [Dict.get?, hbeq, Bool.false_eq_true, if_false]
      cases group with
      | nil => rfl
      | cons head rest =>
        have hput : (warm.putLogState (restoredState keepsZone k head (head :: rest))).getLogState
            key = warm.getLogState key := by
          rw [RingBufferStore.getLogState_putLogState]
          exact if_neg hk
        dsimp only
        rw [hput]

/-- **A log is restored from its rows**, if it has any. -/
theorem getLogState_loadIndexSnapshot (keepsZone : Bool) (serverId : ℤ) (db : Database)
    (warm : RingBufferStore) (key : LogKey) :
    (loadIndexSnapshot keepsZone serverId db warm).getLogState key =
      match (db.indexCache.filter fun r => decide (r.serverId = serverId)).filter
        (fun r => decide (r.logKey = key)) with
      | [] => warm.getLogState key
      | head :: rest => some (restoredState keepsZone key head (head :: rest)) := by
  obtain ⟨hdist, hget⟩ :=
    groupByLog_spec (db.indexCache.filter fun r => decide (r.serverId = serverId))
  refine (getLogState_restore keepsZone key _ warm hdist).trans ?_
  rw [hget]
  cases (db.indexCache.filter fun r => decide (r.serverId = serverId)).filter
      (fun r => decide (r.logKey = key)) with
  | nil => rfl
  | cons head rest => rfl

/-! ## 4. What a log is restored to

What comes back is computed here for rows in any order: the cursor from the column of its kind, the
mnemonics as a sorted set, the index mnemonic as the first of it. -/

/-- A saved cursor as it comes back: there is no column for a text, and the driver may drop the time
zone. -/
def Value.restored (keepsZone : Bool) : Value → Option Value
  | .num x => some (.num x)
  | .text _ => none
  | .dt t => some (.dt { t with aware := t.aware && keepsZone })

theorem mem_sortedSet {ws : List Str} {w : Str} : w ∈ sortedSet ws ↔ w ∈ ws := by
  rw [sortedSet, List.mem_insertionSort, List.mem_dedup]

theorem nodup_sortedSet (ws : List Str) : (sortedSet ws).Nodup :=
  (List.perm_insertionSort _ _).nodup_iff.mpr (List.nodup_dedup ws)

theorem sorted_sortedSet (ws : List Str) : (sortedSet ws).Pairwise (· ≤ ·) := by
  have htot : Std.Total fun a b : Str => (!decide (b < a)) = true := by
    refine ⟨fun a b => ?_⟩
    rcases le_total a b with h | h
    · exact Or.inl (by simpa using h)
    · exact Or.inr (by simpa using h)
  have htrans : IsTrans Str fun a b => (!decide (b < a)) = true := by
    refine ⟨fun a b c hab hbc => ?_⟩
    simp only [Bool.not_eq_true', decide_eq_false_iff_not] at hab hbc ⊢
    exact not_lt.mpr (le_trans (not_lt.mp hab) (not_lt.mp hbc))
  refine (List.pairwise_insertionSort (fun a b : Str => (!decide (b < a)) = true) _).imp ?_
  intro a b hab
  simpa using hab

/-- The first of a sorted set is its least. -/
theorem head_sortedSet {ws : List Str} {w : Str} (hw : w ∈ ws) :
    (sortedSet ws).headD [] ∈ ws ∧ (sortedSet ws).headD [] ≤ w := by
  have hmem : ∀ x, x ∈ sortedSet ws ↔ x ∈ ws := fun x => mem_sortedSet
  have hsorted := sorted_sortedSet ws
  generalize sortedSet ws = sorted at hmem hsorted
  cases sorted with
  | nil => exact absurd ((hmem w).mpr hw) List.not_mem_nil
  | cons least rest =>
    refine ⟨(hmem least).mp List.mem_cons_self, ?_⟩
    rcases List.mem_cons.mp ((hmem w).mpr hw) with rfl | hw
    · exact le_refl _
    · exact (List.pairwise_cons.mp hsorted).1 w hw

theorem lower_direction_value (d : Direction) :
    (if lower d.value = "decreasing".toList then Direction.decreasing else .increasing) = d := by
  cases d <;> decide +kernel

/-- What the rows of a state restore to, in any order. -/
theorem restoredState_eq (keepsZone : Bool) {s : LogState} {last : Value}
    {head : IndexCacheSnapshot} {rest : List IndexCacheSnapshot} (hlast : s.lastIndex = some last)
    (hdec : last.Decoded s.indexType) (hperm : (head :: rest).Perm (stateRows s)) :
    ∃ mnems : List Str, mnems.Perm (savedMnemonics s) ∧
      restoredState keepsZone s.key head (head :: rest) = { s with
        indexMnemonic := (sortedSet mnems).headD []
        mnemonics := sortedSet mnems
        lastIndex := last.restored keepsZone
        objectGrowing := none } := by
  rw [stateRows_eq hlast] at hperm
  refine ⟨(head :: rest).map IndexCacheSnapshot.mnemonic, ?_, ?_⟩
  · have hmap := hperm.map IndexCacheSnapshot.mnemonic
    rw [List.map_map] at hmap
    simpa [Function.comp_def, snapRow] using hmap
  · obtain ⟨mnem, -, hhead⟩ := List.mem_map.mp (hperm.subset List.mem_cons_self)
    have htype : parseIndexType (some head.indexType) = s.indexType := by
      rw [← hhead]
      exact parseIndexType_value s.indexType
    have hdir : (if lower head.direction = "decreasing".toList then Direction.decreasing
        else .increasing) = s.direction := by
      rw [← hhead]
      exact lower_direction_value s.direction
    have huom : head.uom = s.indexUom := by rw [← hhead, snapRow]
    have hcursor : cursorFromSnap keepsZone head s.indexType = last.restored keepsZone := by
      rw [cursorFromSnap, ← hhead, snapRow]
      cases last with
      | num x =>
        have ht : s.indexType.isTime = false := hdec
        simp [ht, indexColumns, asFloat, Value.restored]
      | text w => simp [hdec.1, indexColumns, asFloat, hdec.2, Value.restored]
      | dt t => simp [hdec.1, indexColumns, asDatetime, Value.restored]
    simp only [restoredState, htype, hdir, huom, hcursor, LogState.key]

/-! ## 5. Losslessness

"Loses nothing" is meant twice over.  The restored state agrees with the saved one in what the
scheduler reads of it, and the next poll asks the server the same question.  The second is the one
that matters to the well; the order in which the other curves are listed in the question is left
open, as the source takes them from a sorted set. -/

/-- The first request of the next poll. -/
def firstQuery (cfg : Settings) (h : LogHeader) (s : LogState) : Except PyError LogQuery :=
  ((ingestCall cfg h s).fetchStart s.lastIndex).map Prod.snd

/-- The same request up to the order of the curves after the first one. -/
structure SameRequest (q q' : LogQuery) : Prop where
  indexFirst : q'.mnemonics.head? = q.mnemonics.head?
  curves : q'.mnemonics.Perm q.mnemonics
  rest : { q' with mnemonics := [] } = { q with mnemonics := [] }

/-- What a restart that loses nothing gives back of a state.  A driver that drops the time zone
gives back the instant, which counts as UTC wherever it is used. -/
structure Lossless (keepsZone : Bool) (s restored : LogState) : Prop where
  lastIndex : restored.lastIndex.map aware = s.lastIndex
  zone : keepsZone = true → restored.lastIndex = s.lastIndex
  indexType : restored.indexType = s.indexType
  direction : restored.direction = s.direction
  indexUom : restored.indexUom = s.indexUom
  indexMnemonic : restored.indexMnemonic = s.indexMnemonic
  indexLeads : restored.mnemonics.head? = some restored.indexMnemonic
  request : ∀ cfg h, ∃ q q', firstQuery cfg h s = .ok q ∧ firstQuery cfg h restored = .ok q' ∧
    SameRequest q q'

/-- Saving the states into an empty cache and restarting from its rows, in whatever order the
database returns them, loses nothing. -/
def RoundTrips (keepsZone : Bool) (serverId : ℤ) (perCurve : ℕ)
    (curveSamples : List CurveSampleRow) (states : List LogState) : Prop :=
  ∃ db : Database, Database.commitSnapshot ⟨curveSamples, []⟩ states = .ok db ∧
    ∀ rows, rows.Perm db.indexCache → ∀ s ∈ states, ∃ restored,
      (loadIndexSnapshot keepsZone serverId { db with indexCache := rows }
        (.init perCurve)).getLogState s.key = some restored ∧
      Lossless keepsZone s restored

/-- What the cache can give back: the index mnemonic is the least one, and the cursor is a number or
an instant. -/
structure Recoverable (s : LogState) : Prop where
  named : s.indexMnemonic ≠ []
  least : ∀ m ∈ s.mnemonics, s.indexMnemonic ≤ m
  ordered : ∀ w, s.lastIndex ≠ some (.text w)

/-- The text that a cursor is rendered as. -/
def renderCursor (t : IndexType) (v : Value) : Except PyError Str :=
  if t.isTime then isoUtc v else fmtNum v

/-- The first request of a state with a cursor, with the cursor in the rendering of its type. -/
theorem firstQuery_eq (cfg : Settings) (h : LogHeader) {s : LogState} {last : Value} {text : Str}
    (hlast : s.lastIndex = some last) (htext : renderCursor s.indexType last = .ok text) :
    firstQuery cfg h s = .ok {
      uidWell := h.uidWell
      uidWellbore := h.uidWellbore
      uid := h.uid
      startDateTimeIndex := if s.indexType.isTime then some text else none
      startIndex := if s.indexType.isTime then none else some text
      indexUom := if s.indexType.isTime then [] else s.indexUom.getD []
      mnemonics := s.indexMnemonic :: s.mnemonics.filter (· ≠ s.indexMnemonic)
      options := { returnElements := .dataOnly, maxReturnNodes := some cfg.maxReturnNodes } } := by
  rw [renderCursor] at htext
  simp only [firstQuery, LogDataCall.fetchStart, LogDataCall.request, LogDataCall.initial,
    ingestCall, logDataQuery, hlast]
  by_cases ht : s.indexType.isTime = true
  · rw [if_pos ht] at htext
    simp [ht, htext, Option.mapM, Except.map, bind, Except.bind, pure, Except.pure]
  · rw [if_neg ht] at htext
    simp [ht, htext, Option.mapM, Except.map, bind, Except.bind, pure, Except.pure]

/-- A decoded cursor can be rendered, and comes back as the same text if it comes back. -/
theorem renderCursor_restored (keepsZone : Bool) {t : IndexType} {last : Value}
    (hdec : last.Decoded t) :
    ∃ text, renderCursor t last = .ok text ∧
      ∀ v, last.restored keepsZone = some v → renderCursor t v = .ok text := by
  cases last with
  | num x =>
    have ht : t.isTime = false := hdec
    simp only [renderCursor, ht, Bool.false_eq_true, if_false]
    refine ⟨_, rfl, fun v hv => ?_⟩
    obtain rfl := Option.some.inj hv
    rfl
  | text w =>
    simp only [renderCursor, hdec.1, Bool.false_eq_true, if_false]
    exact ⟨w, rfl, fun v hv => absurd hv (by simp [Value.restored])⟩
  | dt d =>
    simp only [renderCursor, hdec.1, if_true]
    refine ⟨_, rfl, fun v hv => ?_⟩
    obtain rfl := Option.some.inj hv
    rfl

/-- A cursor that has a column comes back as the same instant or number. -/
theorem Value.Decoded.map_aware_restored {t : IndexType} {last : Value} (hdec : last.Decoded t)
    (keepsZone : Bool) (hordered : ∀ w, last ≠ .text w) :
    ∃ v, last.restored keepsZone = some v ∧ aware v = last ∧ (keepsZone = true → v = last) := by
  cases last with
  | num x => exact ⟨.num x, rfl, rfl, fun _ => rfl⟩
  | text w => exact absurd rfl (hordered w)
  | dt d =>
    refine ⟨_, rfl, ?_, fun hk => ?_⟩
    · rw [aware, Value.dt.injEq]
      exact Datetime.ext_micros rfl hdec.2.symm
    · rw [hk, Bool.and_true]

/-- A recoverable state is saved under its own mnemonics. -/
theorem Recoverable.savedMnemonics_eq {s : LogState} (h : Recoverable s)
    (hmem : s.indexMnemonic ∈ s.mnemonics) : savedMnemonics s = s.mnemonics := by
  rw [savedMnemonics, if_neg (List.ne_nil_of_mem hmem)]
  refine List.filter_eq_self.mpr fun m hm => ?_
  rw [decide_eq_true_eq]
  rintro rfl
  -- nothing but the empty mnemonic is at most the empty one
  exact h.named (le_antisymm (h.least [] hm) (not_lt.mp (List.not_lt_nil _)))

/-- A recoverable state is restored without loss.  The least mnemonic is the one that a sorted set
begins with, and a cursor with a column comes back. -/
theorem Recoverable.lossless {keepsZone : Bool} {serverId : ℤ} {s : LogState}
    {head : IndexCacheSnapshot} {rest : List IndexCacheSnapshot} (h : Recoverable s)
    (hbuilt : Built serverId s) (hperm : (head :: rest).Perm (stateRows s)) :
    Lossless keepsZone s (restoredState keepsZone s.key head (head :: rest)) := by
  obtain ⟨last, hlast, hdec⟩ := hbuilt.decoded
  obtain ⟨mnems, hmnems, heq⟩ := restoredState_eq keepsZone hlast hdec hperm
  have hmem := hbuilt.index_mem h.named
  rw [h.savedMnemonics_eq hmem] at hmnems
  obtain ⟨hhead, hle⟩ := head_sortedSet (hmnems.mem_iff.mpr hmem)
  have hindex : (sortedSet mnems).headD [] = s.indexMnemonic :=
    le_antisymm hle (h.least _ (hmnems.mem_iff.mp hhead))
  have hsorted : (sortedSet mnems).Perm s.mnemonics := by
    refine (List.perm_ext_iff_of_nodup (nodup_sortedSet mnems) hbuilt.nodup).mpr fun m => ?_
    rw [mem_sortedSet, hmnems.mem_iff]
  obtain ⟨v, hv, haware, hzone⟩ := hdec.map_aware_restored keepsZone
    fun w hw => h.ordered w (by rw [hlast, hw])
  obtain ⟨text, htext, htext'⟩ := renderCursor_restored keepsZone hdec
  rw [heq]
  constructor
  · change (last.restored keepsZone).map aware = s.lastIndex
    rw [hv, hlast, Option.map_some, haware]
  · intro hk
    change last.restored keepsZone = s.lastIndex
    rw [hv, hlast, hzone hk]
  · rfl
  · rfl
  · rfl
  · exact hindex
  · change (sortedSet mnems).head? = some ((sortedSet mnems).headD [])
    cases hset : sortedSet mnems with
    | nil =>
      rw [hset] at hsorted
      exact absurd (hsorted.mem_iff.mpr hmem) List.not_mem_nil
    | cons m ms => rfl
  · intro cfg hd
    refine ⟨_, _, firstQuery_eq cfg hd hlast htext, firstQuery_eq cfg hd hv (htext' v hv), ?_⟩
    dsimp only
    rw [hindex]
    exact ⟨rfl, (hsorted.filter _).cons _, rfl⟩

/-- A state that is restored without loss is recoverable.  The converse, field by field: if the
restored index mnemonic is the old one, the old one is the least, since that is what the restored
one always is; if the cursor is there, it had a column. -/
theorem Recoverable.of_lossless {keepsZone : Bool} {serverId : ℤ} {s : LogState}
    {head : IndexCacheSnapshot} {rest : List IndexCacheSnapshot}
    (hbuilt : Built serverId s) (hperm : (head :: rest).Perm (stateRows s))
    (h : Lossless keepsZone s (restoredState keepsZone s.key head (head :: rest))) :
    Recoverable s := by
  obtain ⟨last, hlast, hdec⟩ := hbuilt.decoded
  obtain ⟨mnems, hmnems, heq⟩ := restoredState_eq keepsZone hlast hdec hperm
  have hne : ∃ m, m ∈ savedMnemonics s := by
    rw [stateRows_eq hlast] at hperm
    obtain ⟨m, hm, -⟩ := List.mem_map.mp (hperm.subset List.mem_cons_self)
    exact ⟨m, hm⟩
  obtain ⟨m₀, hm₀⟩ := hne
  have hindex := h.indexMnemonic
  rw [heq] at hindex
  replace hindex : (sortedSet mnems).headD [] = s.indexMnemonic := hindex
  obtain ⟨hhead, -⟩ := head_sortedSet (hmnems.mem_iff.mpr hm₀)
  rw [hindex] at hhead
  have hnamed : s.indexMnemonic ≠ [] := by
    have hsaved := hmnems.mem_iff.mp hhead
    rw [savedMnemonics] at hsaved
    simpa using (List.mem_filter.mp hsaved).2
  obtain ⟨v, hv⟩ : ∃ v, last.restored keepsZone = some v := by
    have hback := h.lastIndex
    rw [heq, hlast] at hback
    obtain ⟨v, hv, -⟩ := Option.map_eq_some_iff.mp hback
    exact ⟨v, hv⟩
  obtain ⟨text, htext, htext'⟩ := renderCursor_restored keepsZone hdec
  refine ⟨hnamed, fun m hm => ?_, fun w hw => ?_⟩
  · -- the curve is asked for after the restart, so it has a row
    have hsaved : m ∈ savedMnemonics s := by
      obtain ⟨el, hd, -⟩ := hbuilt.header
      have cfg : Settings := ⟨0, 0, fun _ => .error .valueError⟩
      obtain ⟨q, q', hq, hq', hsame⟩ := h.request cfg hd
      rw [heq] at hq'
      obtain rfl := Except.ok.inj ((firstQuery_eq cfg hd hlast htext).symm.trans hq)
      obtain rfl := Except.ok.inj (hq'.symm.trans (firstQuery_eq cfg hd hv (htext' v hv)))
      have hasked : m ∈ s.indexMnemonic :: s.mnemonics.filter (· ≠ s.indexMnemonic) := by
        by_cases hmi : m = s.indexMnemonic
        · exact List.mem_cons.mpr (Or.inl hmi)
        · exact List.mem_cons_of_mem _ (List.mem_filter.mpr ⟨hm, by simpa using hmi⟩)
      have hagain := hsame.curves.mem_iff.mpr hasked
      dsimp only at hagain
      rw [hindex] at hagain
      rcases List.mem_cons.mp hagain with rfl | hagain
      · exact hmnems.mem_iff.mp hhead
      · exact hmnems.mem_iff.mp (mem_sortedSet.mp (List.mem_filter.mp hagain).1)
    rw [← hindex]
    exact (head_sortedSet (hmnems.mem_iff.mpr hsaved)).2
  · have hback := h.lastIndex
    rw [heq, hw] at hback
    rw [hlast] at hw
    obtain rfl := Option.some.inj hw
    exact absurd hback (by simp [Value.restored])

/-! ## 6. Restart -/

/-- The committed table: the rows of all states. -/
theorem commitSnapshot_empty {serverId : ℤ} (curveSamples : List CurveSampleRow)
    {states : List LogState}
    (hbuilt : ∀ s ∈ states, Built serverId s)
    (hkeys : states.Pairwise fun s s' => s.key ≠ s'.key) :
    Database.commitSnapshot ⟨curveSamples, []⟩ states =
      .ok ⟨curveSamples, states.flatMap stateRows⟩ := by
  rw [Database.commitSnapshot]
  simp only [snapshotTable_empty]
  exact if_pos (nodup_snapshotTable hbuilt hkeys)

/-- The state that a log has after the restart. -/
theorem getLogState_restart {keepsZone : Bool} {serverId : ℤ} {perCurve : ℕ}
    {curveSamples : List CurveSampleRow}
    {states : List LogState} (hbuilt : ∀ s ∈ states, Built serverId s)
    (hkeys : states.Pairwise fun s s' => s.key ≠ s'.key) {rows : List IndexCacheSnapshot}
    (hrows : rows.Perm (states.flatMap stateRows)) {s : LogState} (hs : s ∈ states) :
    (stateRows s = [] ∧ (loadIndexSnapshot keepsZone serverId ⟨curveSamples, rows⟩
      (.init perCurve)).getLogState s.key = none) ∨
    ∃ head rest, (head :: rest).Perm (stateRows s) ∧
      (loadIndexSnapshot keepsZone serverId ⟨curveSamples, rows⟩ (.init perCurve)).getLogState s.key =
        some (restoredState keepsZone s.key head (head :: rest)) := by
  have hserver : rows.filter (fun r => decide (r.serverId = serverId)) = rows := by
    refine List.filter_eq_self.mpr fun r hr => decide_eq_true ?_
    obtain ⟨s', hs', hr⟩ := List.mem_flatMap.mp (hrows.subset hr)
    rw [(logKey_of_mem_stateRows hr).2, (hbuilt s' hs').server]
  have hgroup : (rows.filter fun r => decide (r.logKey = s.key)).Perm (stateRows s) := by
    have hfilter := hrows.filter fun r => decide (r.logKey = s.key)
    rwa [filter_flatMap_stateRows hkeys hs] at hfilter
  rw [getLogState_loadIndexSnapshot]
  dsimp only
  rw [hserver]
  cases hcase : rows.filter (fun r => decide (r.logKey = s.key)) with
  | nil =>
    rw [hcase] at hgroup
    exact Or.inl ⟨hgroup.nil_eq.symm, rfl⟩
  | cons head rest =>
    rw [hcase] at hgroup
    exact Or.inr ⟨head, rest, hgroup, rfl⟩

/-- **A restart gives every log its state back exactly if every state is recoverable.**

The logs do not disturb each other, so the statement about the store is the statement about each
state; what remains is `Recoverable.lossless` and its converse.  That every log comes back is part
of it: a group without a readable cursor makes a state all the same. -/
theorem snapshot_restore_iff (keepsZone : Bool) (serverId : ℤ) (perCurve : ℕ)
    (curveSamples : List CurveSampleRow) {states : List LogState} (hbuilt : ∀ s ∈ states, Built serverId s)
    (hkeys : states.Pairwise fun s s' => s.key ≠ s'.key) :
    RoundTrips keepsZone serverId perCurve curveSamples states ↔ ∀ s ∈ states, Recoverable s := by
  have hcommit := commitSnapshot_empty curveSamples hbuilt hkeys
  constructor
  · rintro ⟨db, hdb, hall⟩ s hs
    obtain rfl := Except.ok.inj (hcommit.symm.trans hdb)
    obtain ⟨restored, hget, hlossless⟩ := hall _ (List.Perm.refl _) s hs
    rcases getLogState_restart hbuilt hkeys (List.Perm.refl _) hs with
      ⟨-, hnone⟩ | ⟨head, rest, hperm, hsome⟩
    · exact absurd (hnone.symm.trans hget) (by simp)
    · obtain rfl := Option.some.inj (hsome.symm.trans hget)
      exact Recoverable.of_lossless (hbuilt s hs) hperm hlossless
  · intro hrec
    refine ⟨_, hcommit, fun rows hrows s hs => ?_⟩
    have h := hrec s hs
    have hb := hbuilt s hs
    rcases getLogState_restart hbuilt hkeys hrows hs with ⟨hnil, -⟩ | ⟨head, rest, hperm, hsome⟩
    · -- its index mnemonic has a row
      obtain ⟨last, hlast, -⟩ := hb.decoded
      have hmem := hb.index_mem h.named
      rw [stateRows_eq hlast, List.map_eq_nil_iff, h.savedMnemonics_eq hmem] at hnil
      rw [hnil] at hmem
      exact absurd hmem List.not_mem_nil
    · exact ⟨_, hsome, h.lossless hb hperm⟩

/-- A curve of a header. -/
def curveElem (mnem : Str) : LogCurveInfoElem :=
  ⟨none, some mnem, none, none, none, none, none, none, none, none⟩

/-- A header of an index curve and another one. -/
def headerElem (uid : Str) (indexType : IndexType) (index curve : Str) : LogElem :=
  { uid := some uid, uidWell := some "W-1".toList, uidWellbore := some "B-1".toList
    indexType := some indexType.value, indexCurve := some index
    logCurveInfo := [curveElem index, curveElem curve] }

/-- The state of such a log after a poll. -/
def polledState (uid : Str) (indexType : IndexType) (index curve : Str) (last : Value) :
    LogState where
  serverId := 1
  wellUid := "W-1".toList
  wellboreUid := "B-1".toList
  logUid := uid
  indexType := indexType
  direction := .increasing
  indexUom := none
  indexMnemonic := index
  mnemonics := [index, curve]
  lastIndex := some last
  objectGrowing := some true

/-- A depth log whose index mnemonic is the least one. -/
def depthState : LogState :=
  polledState "L-1".toList .measuredDepth "DEPTH".toList "GR".toList (.num (.ofRatio 10 1))

theorem built_depthState : Built 1 depthState :=
  ⟨⟨headerElem "L-1".toList .measuredDepth "DEPTH".toList "GR".toList, _, rfl, by decide, rfl⟩,
    _, commonNullSentinels, "10".toList, rfl, by decide +kernel⟩

/-- A time log whose index mnemonic is the least one. -/
def timeState : LogState :=
  polledState "L-2".toList .dateTime "TIME".toList "WOB".toList (.dt ⟨0, by decide, true⟩)

theorem built_timeState : Built 1 timeState :=
  ⟨⟨headerElem "L-2".toList .dateTime "TIME".toList "WOB".toList, _, rfl, by decide, rfl⟩,
    _, commonNullSentinels, "0001-01-01T00:00:00Z".toList, rfl, by decide +kernel⟩

/-- Both states come back, though the driver drops the zone of the instant. -/
theorem snapshot_restore_iff_two :
    RoundTrips false 1 2000 [] [depthState, timeState] ↔
      ∀ s ∈ [depthState, timeState], Recoverable s :=
  snapshot_restore_iff false 1 2000 []
    (by simp only [List.mem_cons, List.not_mem_nil, or_false, forall_eq_or_imp, forall_eq]
        exact ⟨built_depthState, built_timeState⟩)
    (by decide +kernel)

/-- A depth log with a bit curve, which comes first in the alphabet. -/
def bitState : LogState :=
  polledState "L-1".toList .measuredDepth "DEPTH".toList "BIT".toList (.num (.ofRatio 10 1))

theorem built_bitState : Built 1 bitState :=
  ⟨⟨headerElem "L-1".toList .measuredDepth "DEPTH".toList "BIT".toList, _, rfl, by decide, rfl⟩,
    _, commonNullSentinels, "10".toList, rfl, by decide +kernel⟩

/-- A depth log whose latest index cell was no number. -/
def textState : LogState :=
  polledState "L-1".toList .measuredDepth "DEPTH".toList "GR".toList (.text "10 m".toList)

theorem built_textState : Built 1 textState :=
  ⟨⟨headerElem "L-1".toList .measuredDepth "DEPTH".toList "GR".toList, _, rfl, by decide, rfl⟩,
    _, commonNullSentinels, "10 m".toList, rfl, by decide +kernel⟩

/-- **A restart mistakes the first curve in the alphabet for the index**, and forgets a cursor that
is a text. -/
theorem snapshot_restore_loses :
    (Built 1 bitState ∧ ¬RoundTrips true 1 2000 [] [bitState] ∧
      ((loadIndexSnapshot true 1 ⟨[], stateRows bitState⟩ (.init 2000)).getLogState
        bitState.key).map LogState.indexMnemonic = some "BIT".toList) ∧
    Built 1 textState ∧ ¬RoundTrips true 1 2000 [] [textState] := by
  refine ⟨⟨built_bitState, ?_, by decide +kernel⟩, built_textState, ?_⟩
  · rintro ⟨db, hdb, hall⟩
    have hbuilt : ∀ s ∈ [bitState], Built 1 s := by simpa using built_bitState
    have hcommit := commitSnapshot_empty [] hbuilt (by decide +kernel)
    obtain rfl := Except.ok.inj (hcommit.symm.trans hdb)
    obtain ⟨restored, hget, hlossless⟩ := hall _ (List.Perm.refl _) bitState (by simp)
    have hindex := congrArg (Option.map LogState.indexMnemonic) hget
    rw [Option.map_some, hlossless.indexMnemonic] at hindex
    exact absurd hindex (by decide +kernel)
  · rintro ⟨db, hdb, hall⟩
    have hbuilt : ∀ s ∈ [textState], Built 1 s := by simpa using built_textState
    have hcommit := commitSnapshot_empty [] hbuilt (by decide +kernel)
    obtain rfl := Except.ok.inj (hcommit.symm.trans hdb)
    obtain ⟨restored, hget, hlossless⟩ := hall _ (List.Perm.refl _) textState (by simp)
    have hlast := congrArg (Option.map LogState.lastIndex) hget
    rw [Option.map_some, hlossless.zone rfl] at hlast
    exact absurd hlast (by decide +kernel)

end WitsmlViewer
