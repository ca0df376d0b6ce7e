/-
# How a stored log grows

`UpdateInStore` writes the rows of one element into a log, one after the other, and touches nothing
else of it.  `updateEntries` are those rows.  Two conditions on an update matter:

* `Extends`: every row is at the log's frontier or beyond it.  The log's table then grows in the
  sense of `GrowingTable.Grows` (`Extends.grows`): the frontier row may change, nothing behind it.
* `Appends`: every row is strictly beyond the frontier.  Then no stored row changes at all.

Everything that the client's view of a log depends on, apart from its rows, is untouched by an
update (`SameHead`).

Both conditions are decidable and about the update and the log as it is; a run may impose one of
them on each of its updates.  They are not promises that the store makes: it accepts rows anywhere,
and rewrites any row that it is sent again (`Rewriting`).  They describe a server that logs as
drilling goes on, which is what the viewer is built for, and every result that uses one of them
says so.

An update that raises on one of its lines has written the lines before it, and counts as an update
with those rows.
-/
import WitsmlViewer.Serving

namespace WitsmlViewer

open Py GrowingTable
open MockStore (updatedLog)

/-! ## 1. What an update leaves alone

Identity, index type, direction, curves and the null value.  A client's query, the columns it reads
and the bounds the store parses depend on these only. -/

/-- Two states of one log: they differ in their rows and in `objectGrowing` at most. -/
structure SameHead (log log' : StoredLog) : Prop where
  key : log'.key = log.key
  indexType : log'.indexType = log.indexType
  direction : log'.direction = log.direction
  curves : log'.curves = log.curves
  nullValue : log'.nullValue = log.nullValue

namespace SameHead

variable {log log' log'' : StoredLog}

theorem refl (log : StoredLog) : SameHead log log := ⟨rfl, rfl, rfl, rfl, rfl⟩

/-- Headers stay the same through any number of updates. -/
theorem trans (h : SameHead log log') (h' : SameHead log' log'') : SameHead log log'' :=
  ⟨h'.key.trans h.key, h'.indexType.trans h.indexType, h'.direction.trans h.direction,
    h'.curves.trans h.curves, h'.nullValue.trans h.nullValue⟩

theorem entryKey (h : SameHead log log') : log'.entryKey = log.entryKey := by
  funext e
  rw [StoredLog.entryKey, StoredLog.entryKey, h.direction]

theorem columns (h : SameHead log log') : log'.columns = log.columns := by
  simp only [StoredLog.columns, StoredLog.mnemonics, h.curves]

theorem columnUnits (h : SameHead log log') : log'.columnUnits = log.columnUnits := by
  funext cols
  simp only [StoredLog.columnUnits, StoredLog.units, h.curves]

theorem block (h : SameHead log log') : log'.block = log.block := by
  funext cols pg
  simp only [StoredLog.block, h.columnUnits, h.indexType]

end SameHead

/-- Ingesting rows keeps the header, by the induction principle of ingestion. -/
theorem ingestLogData_sameHead (log : StoredLog) (el : LogElem) :
    SameHead log (ingestLogData log el).1 :=
  ingestLogData_induction (P := SameHead log) (fun _ _ h => ⟨h.1, h.2, h.3, h.4, h.5⟩)
    (SameHead.refl log) el

/-- What `updatedLog` stores is what ingesting the element stores. -/
theorem updatedLog_rows (log : StoredLog) (el : LogElem) :
    (updatedLog el log).indexType = (ingestLogData log el).1.indexType ∧
      (updatedLog el log).rows.entries = (ingestLogData log el).1.rows.entries := by
  rw [updatedLog]
  split <;> rename_i h <;> rw [h] <;> exact ⟨rfl, rfl⟩

/-- So does an update, which may set the growing flag besides. -/
theorem updatedLog_sameHead (log : StoredLog) (el : LogElem) : SameHead log (updatedLog el log) := by
  have h := ingestLogData_sameHead log el
  rw [updatedLog]
  split <;> rename_i hin <;> rw [hin] at h
  · exact ⟨h.1, h.2, h.3, h.4, h.5⟩
  · exact h

/-! ## 2. The rows of an update

Each line is one row, or none if its first cell is no index.  Which row it is depends on the
header, never on the rows that are there. -/

/-- The row that a line writes, if any. -/
def lineEntry (log : StoredLog) (incoming : List Str) (text : Str) : Option Entry :=
  (incomingRow log incoming text).toOption.join.map fun r => (r.key, r.row)

/-- What a line reads as does not depend on the rows before it. -/
theorem lineEntry_insert (log : StoredLog) (r : KeyedRow log.indexType) (incoming : List Str)
    (text : Str) : lineEntry (log.insert r) incoming text = lineEntry log incoming text := rfl

namespace StoredLog

/-- The rows that an update writes. -/
def updateEntries (log : StoredLog) (el : LogElem) : List Entry :=
  match el.logData with
  | none => []
  | some ld => (dataLines ld).filterMap (lineEntry log (incomingMnemonics log ld))

end StoredLog

/-- Ingestion through the rows it writes: `Q` holds of every row afterwards if it does of the
old and of the new ones, an old row stays unless a new one has its index, and no index is lost.

`Q` is a parameter so that order, readability and exactness of all rows come out of one
induction. -/
theorem ingestLines_entries {Q : Entry → Prop} (incoming : List Str) :
    ∀ (texts : List Str) (log : StoredLog),
      (∀ text ∈ texts, ∀ e, lineEntry log incoming text = some e → Q e) →
      (∀ e ∈ (ingestLines incoming texts log).1.rows.entries, e ∈ log.rows.entries ∨ Q e) ∧
      (∀ e ∈ log.rows.entries, (∀ f, Q f → f.1 ≠ e.1) →
        e ∈ (ingestLines incoming texts log).1.rows.entries) ∧
      ∀ e ∈ log.rows.entries, ∃ e' ∈ (ingestLines incoming texts log).1.rows.entries, e'.1 = e.1
  | [], log, _ => ⟨fun _ he => Or.inl he, fun _ he _ => he, fun e he => ⟨e, he, rfl⟩⟩
  | text :: texts, log, h => by
    have hhead := h text List.mem_cons_self
    have htail : ∀ text ∈ texts, ∀ e, lineEntry log incoming text = some e → Q e :=
      fun t ht => h t (List.mem_cons_of_mem _ ht)
    rw [lineEntry] at hhead
    simp only [ingestLines]
    split
    · exact ⟨fun _ he => Or.inl he, fun _ he _ => he, fun e he => ⟨e, he, rfl⟩⟩
    · exact ingestLines_entries incoming texts log htail
    · rename_i r hr
      rw [hr] at hhead
      have hQ : Q (r.key, r.row) := hhead _ rfl
      obtain ⟨hnew, hold, hkeys⟩ := ingestLines_entries (Q := Q) incoming texts (log.insert r)
        fun text htext e he => htail text htext e (by rwa [lineEntry_insert] at he)
      have hins : (log.insert r).rows.entries = log.rows.entries.set r.key r.row := rfl
      refine ⟨fun e he => ?_, fun e he hne => ?_, fun e he => ?_⟩
      · rcases hnew e he with he | he
        · rw [hins] at he
          rcases Dict.mem_of_mem_set Value.eq_of_beq log.rows.distinct he with rfl | ⟨he, -⟩
          · exact Or.inr hQ
          · exact Or.inl he
        · exact Or.inr he
      · refine hold e ?_ hne
        rw [hins]
        refine Dict.mem_set_of_ne he ?_
        by_contra hbeq
        exact hne _ hQ (Value.eq_of_beq _ _ (by simpa using hbeq)).symm
      · by_cases hbeq : (e.1 == r.key) = true
        · obtain ⟨e', he', hk⟩ := hkeys (r.key, r.row) (by
            rw [hins]; exact Dict.mem_set_self Value.eq_of_beq _ _ _)
          exact ⟨e', he', hk.trans (Value.eq_of_beq _ _ hbeq).symm⟩
        · refine hkeys e ?_
          rw [hins]
          exact Dict.mem_set_of_ne he (by simpa using hbeq)

/-- The same for a whole update. -/
theorem updatedLog_entries {Q : Entry → Prop} {log : StoredLog} {el : LogElem}
    (h : ∀ e ∈ log.updateEntries el, Q e) :
    (∀ e ∈ (updatedLog el log).rows.entries, e ∈ log.rows.entries ∨ Q e) ∧
      (∀ e ∈ log.rows.entries, (∀ f, Q f → f.1 ≠ e.1) →
        e ∈ (updatedLog el log).rows.entries) ∧
      ∀ e ∈ log.rows.entries, ∃ e' ∈ (updatedLog el log).rows.entries, e'.1 = e.1 := by
  rw [(updatedLog_rows log el).2, ingestLogData]
  rw [StoredLog.updateEntries] at h
  cases hld : el.logData with
  | none => exact ⟨fun _ he => Or.inl he, fun _ he _ => he, fun e he => ⟨e, he, rfl⟩⟩
  | some ld =>
    rw [hld] at h
    dsimp only
    by_cases hinc : incomingMnemonics log ld = []
    · rw [if_pos hinc]
      exact ⟨fun _ he => Or.inl he, fun _ he _ => he, fun e he => ⟨e, he, rfl⟩⟩
    · rw [if_neg hinc]
      exact ingestLines_entries _ _ log fun text htext e he =>
        h e (List.mem_filterMap.mpr ⟨text, htext, he⟩)

/-! ## 3. Growth

The two conditions, and what they do to the table as an ordered list. -/

namespace StoredLog

variable {log : StoredLog} {el : LogElem}

/-- Every row of the update is ordered, and at the frontier or beyond it. -/
def Extends (log : StoredLog) (el : LogElem) : Prop :=
  ∀ e ∈ log.updateEntries el, e.1.Orders log.indexType ∧
    ∀ f ∈ log.rows.entries, log.entryKey f ≤ log.entryKey e

/-- Every row of the update is ordered, and strictly beyond the frontier. -/
def Appends (log : StoredLog) (el : LogElem) : Prop :=
  ∀ e ∈ log.updateEntries el, e.1.Orders log.indexType ∧
    ∀ f ∈ log.rows.entries, log.entryKey f < log.entryKey e

instance : Decidable (log.Extends el) := inferInstanceAs (Decidable (∀ e ∈ _, _))

instance : Decidable (log.Appends el) := inferInstanceAs (Decidable (∀ e ∈ _, _))

theorem Appends.extends (h : log.Appends el) : log.Extends el := fun e he =>
  ⟨(h e he).1, fun f hf => ((h e he).2 f hf).le⟩

/-- An update of ordered rows keeps the log orderable. -/
theorem Orderable.update (ho : log.Orderable)
    (h : ∀ e ∈ log.updateEntries el, e.1.Orders log.indexType) :
    (updatedLog el log).Orderable := by
  intro e he
  rcases (updatedLog_entries (Q := fun e => e.1.Orders log.indexType) h).1 e he with he | he
  · exact ho e he
  · exact he.ne_nan

/-- **An update at or beyond the frontier grows the table.**  Every row behind the frontier is as
it was, and every new index is at the frontier or beyond it. -/
theorem Extends.grows (h : log.Extends el) :
    Grows log.entryKey log.table (updatedLog el log).table := by
  have hup := updatedLog_entries (Q := fun e => e.1.Orders log.indexType ∧
    ∀ f ∈ log.rows.entries, log.entryKey f ≤ log.entryKey e) h
  obtain ⟨hnew, hold, hkeys⟩ := hup
  simp only [← mem_table] at hnew hold hkeys
  refine ⟨fun e he => ?_, fun e' he' e he hlt => ?_, fun e he f hf hlt => ?_⟩
  · obtain ⟨e', he', hk⟩ := hkeys e he
    exact ⟨e', he', by rw [entryKey, entryKey, hk]⟩
  · refine (hnew e' he').elim id fun hQ => ?_
    exact absurd (hQ.2 e he) (not_le.mpr hlt)
  · refine hold e he fun g hg hk => ?_
    have hle := hg.2 f hf
    have heq : log.entryKey g = log.entryKey e := by rw [entryKey, entryKey, hk]
    omega

/-- **An update strictly beyond the frontier adds rows and changes none.** -/
theorem Appends.mem (h : log.Appends el) :
    (∀ e ∈ log.table, e ∈ (updatedLog el log).table) ∧
      ∀ e ∈ (updatedLog el log).table,
        e ∈ log.table ∨ ∀ f ∈ log.table, log.entryKey f < log.entryKey e := by
  have hup := updatedLog_entries (Q := fun e => e.1.Orders log.indexType ∧
    ∀ f ∈ log.rows.entries, log.entryKey f < log.entryKey e) h
  obtain ⟨hnew, hold, -⟩ := hup
  simp only [← mem_table] at hnew hold
  refine ⟨fun e he => hold e he fun g hg hk => ?_, fun e he => ?_⟩
  · have hlt := hg.2 e he
    have heq : log.entryKey g = log.entryKey e := by rw [entryKey, entryKey, hk]
    omega
  · exact (hnew e he).imp id And.right

end StoredLog

/-! ## 4. The store around a log

An identity addresses one log; but a query with an empty attribute addresses all of them, and a
client that was given an empty uid would ask with one.  `Sole` is the condition that no other log
answers. -/

namespace MockStore

variable {store : MockStore} {key : Str × Str × Str} {log : StoredLog}

theorem mem_of_findLog (h : store.findLog key = some log) : log ∈ store.logs ∧ log.key = key :=
  ⟨List.mem_of_find?_eq_some h, by simpa using List.find?_some h⟩

theorem findLog_of_mem (h : log ∈ store.logs) : store.findLog log.key = some log := by
  cases hf : store.findLog log.key with
  | none =>
    have := List.find?_eq_none.mp hf log h
    simp at this
  | some log' =>
    obtain ⟨hmem, hkey⟩ := mem_of_findLog hf
    rw [List.inj_on_of_nodup_map store.logsDistinct hmem h hkey]

/-- An update changes the addressed log and no other. -/
theorem findLog_updateLog (el : LogElem) :
    (store.updateLog (some el)).1.findLog key =
      (store.findLog key).map fun log => if key = elemKey el then updatedLog el log else log := by
  rw [updateLog]
  split
  · rename_i hnone
    by_cases hk : key = elemKey el
    · rw [hk, hnone]
      rfl
    · simp only [hk, if_false]
      exact Option.map_id'.symm
  · have hkeys : ∀ l : StoredLog,
        (if l.key = elemKey el then updatedLog el l else l).key = l.key := by
      intro l
      split
      · exact updatedLog_key el l
      · rfl
    rw [findLog, mapLogs, List.find?_map]
    have hcomp : ((fun l : StoredLog => decide (l.key = key)) ∘ fun l : StoredLog =>
        if l.key = elemKey el then updatedLog el l else l) = fun l => decide (l.key = key) := by
      funext l
      simp only [Function.comp_apply, hkeys l]
    rw [hcomp]
    cases hf : store.logs.find? fun l => decide (l.key = key) with
    | none => simp [findLog, hf]
    | some l =>
      have hlk : l.key = key := by simpa using List.find?_some hf
      simp [findLog, hf, hlk]

/-- No other log of the store answers to the attributes of this identity; an empty attribute
addresses every log. -/
def Sole (store : MockStore) (key : Str × Str × Str) : Prop :=
  ∀ log ∈ store.logs, (key.2.2 = [] ∨ log.uid = key.2.2) → (key.1 = [] ∨ log.uidWell = key.1) →
    (key.2.1 = [] ∨ log.uidWellbore = key.2.1) → log.key = key

instance : Decidable (store.Sole key) := inferInstanceAs (Decidable (∀ log ∈ _, _))

theorem updateLog_keys (el : LogElem) :
    (store.updateLog (some el)).1.logs.map StoredLog.key = store.logs.map StoredLog.key := by
  rw [updateLog]
  split
  · rfl
  · rw [mapLogs, List.map_map]
    refine List.map_congr_left fun l _ => ?_
    simp only [Function.comp_apply]
    split
    · exact updatedLog_key el l
    · rfl

theorem Sole.update (h : store.Sole key) (el : LogElem) :
    (store.updateLog (some el)).1.Sole key := by
  intro log hlog huid hwell hwellbore
  have hmem : log.key ∈ (store.updateLog (some el)).1.logs.map StoredLog.key :=
    List.mem_map_of_mem hlog
  rw [updateLog_keys] at hmem
  obtain ⟨log₀, hlog₀, hkey⟩ := List.mem_map.mp hmem
  obtain ⟨h1, h2, h3⟩ : log₀.uidWell = log.uidWell ∧ log₀.uidWellbore = log.uidWellbore ∧
      log₀.uid = log.uid := by
    simpa [StoredLog.key] using hkey
  rw [← hkey]
  exact h log₀ hlog₀ (h3 ▸ huid) (h1 ▸ hwell) (h2 ▸ hwellbore)

/-- **A query with the identity of a sole log is answered by that log.** -/
theorem queryLogs_of_sole (hf : store.findLog key = some log) (hs : store.Sole key) {q : LogQuery}
    (hwell : q.uidWell = key.1) (hwellbore : q.uidWellbore = key.2.1) (huid : q.uid = key.2.2) :
    store.queryLogs q = (log.answer store.maxRequestLatestValues q).map fun a =>
      (if a.2 then rcPartialSuccess else rcSuccess, [a.1]) := by
  obtain ⟨hmem, hkey⟩ := mem_of_findLog hf
  have hfilter : store.logs.filter (fun l : StoredLog => l.addressedBy q) = [log] := by
    have hnodup : store.logs.Nodup := store.logsDistinct.of_map _
    refine List.perm_singleton.mp
      ((List.perm_ext_iff_of_nodup (hnodup.filter _) (by simp)).mpr fun l => ?_)
    rw [List.mem_filter, List.mem_singleton]
    constructor
    · rintro ⟨hl, haddr⟩
      simp only [StoredLog.addressedBy, hwell, hwellbore, huid, Bool.and_eq_true, Bool.or_eq_true,
        decide_eq_true_eq] at haddr
      have hlk := hs l hl haddr.1.1 haddr.1.2 haddr.2
      exact List.inj_on_of_nodup_map store.logsDistinct hl hmem (hlk.trans hkey.symm)
    · rintro rfl
      refine ⟨hmem, ?_⟩
      simp [StoredLog.addressedBy, hwell, hwellbore, huid, ← hkey, StoredLog.key]
  rw [queryLogs, hfilter, List.mapM_cons]
  cases log.answer store.maxRequestLatestValues q with
  | error e => rfl
  | ok a => simp [bind, Except.bind, pure, Except.pure, Except.map]

end MockStore

/-! ## 5. Small stores

Elements and stores for the runs on concrete inputs in other modules. -/

/-- An element for a log of wellbore `B` of well `W`, with one curve for each mnemonic. -/
def logElem (uid : String) (t : IndexType) (d : Direction) (mnemonics lines : List String) :
    LogElem where
  uid := some uid.toList
  uidWell := some "W".toList
  uidWellbore := some "B".toList
  indexType := some t.value
  direction := some d.value
  logCurveInfo := mnemonics.map fun m =>
    ⟨none, some m.toList, none, none, none, none, none, none, none, none⟩
  logData := some ⟨some (join ',' (mnemonics.map String.toList)), none,
    lines.map fun line => some line.toList⟩

/-- A store after adding the given logs. -/
def storeOf (els : List LogElem) : MockStore :=
  els.foldl (fun store el => (store.addLog (some el)).1) ⟨[], [], [], nodup_keys_nil, 10000⟩

/-- The index that a token stands for. -/
def indexOf (t : IndexType) (token : String) : Value :=
  match parseIndex (some token.toList) t with
  | .ok (some v) => v
  | _ => .text []

end WitsmlViewer
