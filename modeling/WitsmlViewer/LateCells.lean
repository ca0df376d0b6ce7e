/-
# Late cells

The frontier row of a log may get cells after it has been fetched.  The next call fetches it again,
since the start bound is inclusive, and drops it: a row at the cursor is taken for one that has
been handed on.  So a late cell of the boundary row never arrives (`late_cells_lost`), and what a
complete fetch guarantees is about the rows strictly beyond the cursor it began from
(`beyond_cursor_handed`).

Dropping the boundary row is the stated purpose of `dedupe_boundary`, and its tests assert it: a
server repeats the row at the bound, and without the dedupe every poll would hand it on again.  The
code has no way to tell a repeated row from a completed one.  So the guarantee is amended, not the
code.

The discipline here (`coveredPages`) lets the frontier row be rewritten at any moment.  A complete
fetch covers its range provided that a floored start bound skips no row (`FloorsSafely`): a
decreasing log with indices between two milliseconds loses rows to it, and a row whose index is
written as a null sentinel has no index for the client.

Compared with `ExactlyOnce` more is allowed and less is promised.  Nothing is said of the rows up
to the cursor, which may have changed since they were handed on, and nothing of a call that was cut
off.
-/
import WitsmlViewer.ExactlyOnce

namespace WitsmlViewer

open Py GrowingTable Runs
open MockStore (elemKey updatedLog)

/-! ## 1. The discipline

A page holds rows as they were when it was served.  A row that has others beyond it is not at the
frontier any more, so it does not change again: this is what `Settled` is for.  The rows of a page
that was cut off are settled at once. -/

namespace StoredLog

/-- A bound that is floored to the millisecond skips no row of the log. -/
def FloorsSafely (log : StoredLog) : Prop :=
  log.direction = .increasing ∨ ∀ e ∈ log.rows.entries, Exact e.1

instance (log : StoredLog) : Decidable log.FloorsSafely :=
  inferInstanceAs (Decidable (_ ∨ ∀ e ∈ log.rows.entries, Exact e.1))

/-- An index of the log. -/
def HasIndex (log : StoredLog) (v : Value) : Prop := ∃ e ∈ log.rows.entries, e.1 = v

/-- Readable rows that have further rows beyond them. -/
def Settled (log : StoredLog) (got : List Entry) : Prop :=
  ∀ e ∈ got, log.reads e = true → e ∈ log.table ∧ ∃ f ∈ log.table, log.entryKey e < log.entryKey f

variable {log : StoredLog} {el : LogElem} {got : List Entry}

theorem HasIndex.update (hu : log.Extends el) {v : Value} (hv : log.HasIndex v) :
    (updatedLog el log).HasIndex v := by
  obtain ⟨e, he, rfl⟩ := hv
  exact (updatedLog_entries hu).2.2 e he

/-- On a log whose bounds floor safely, an index can be resumed from without a loss. -/
theorem HasIndex.exact {v : Value} (hv : log.HasIndex v) (hf : log.FloorsSafely) :
    log.direction = .increasing ∨ Exact v := by
  obtain ⟨e, he, rfl⟩ := hv
  exact hf.imp id fun hex => hex e he

theorem FloorsSafely.exact (hf : log.FloorsSafely) (h : ∀ e ∈ got, log.HasIndex e.1) :
    log.direction = .increasing ∨ ∀ e ∈ got, Exact e.1 :=
  or_iff_not_imp_left.mpr fun hd e he => ((h e he).exact hf).resolve_left hd

/-- Indices stay, so a log whose bounds floor safely has always been one. -/
theorem FloorsSafely.of_update (hu : log.Extends el) (hf : (updatedLog el log).FloorsSafely) :
    log.FloorsSafely := by
  unfold FloorsSafely at hf ⊢
  rw [(updatedLog_sameHead log el).direction] at hf
  refine hf.imp id fun hex e he => ?_
  obtain ⟨e', he', hk⟩ := (updatedLog_entries hu).2.2 e he
  exact hk ▸ hex e' he'

theorem Settled.update (hu : log.Extends el) (h : log.Settled got) :
    (updatedLog el log).Settled got := by
  have hs := updatedLog_sameHead log el
  have hg := hu.grows
  intro e he hr
  rw [hs.reads] at hr
  obtain ⟨het, f, hf, hlt⟩ := h e he hr
  obtain ⟨f', hf', hk⟩ := hg.keys f hf
  rw [hs.entryKey]
  exact ⟨hg.settled e het f hf hlt, f', hf', hk ▸ hlt⟩

/-- The rows of a cut-off page are settled. -/
theorem settled_page (ho : log.Orderable) {lo : Option Value} {maxNodes : Option ℤ}
    (htr : (log.page lo none maxNodes).2 = true) : log.Settled (log.page lo none maxNodes).1 := by
  rcases log.page_cases lo none maxNodes with ⟨n, -, -, hn, hp⟩ | hp
  · rw [tableTo_none] at hn hp
    intro e he _
    rw [hp] at he
    obtain ⟨f, hf, hlt⟩ := ((log.table_ordered ho).window _).exists_beyond_take hn
    exact ⟨(mem_window.mp (List.mem_of_mem_take he)).1, f, (mem_window.mp hf).1, hlt e he⟩
  · rw [hp] at htr
    exact absurd htr (by simp)

end StoredLog

/-- The pages are settled, and cover the table up to the last continuation unless a floored bound
may have skipped a row.

The cover is conditional, and not a part of what the log has to satisfy, so that the first half of
`nulls_kept_iff` holds of every log. -/
def coveredPages (maxNodes : ℤ) : Discipline maxNodes where
  log := StoredLog.Orderable
  update := StoredLog.Extends
  cursor l c := ∀ v, c = some v → l.HasIndex v
  pages call l start st got := (∀ e ∈ got, l.HasIndex e.1) ∧ l.Settled got ∧
    (l.FloorsSafely → Covering call l start st got)
  orderable h := h
  fresh _ := by simp
  log_update h hu := h.update fun e he => (hu e he).1
  cursor_update _ hu hc v hv := (hc v hv).update hu
  pages_update {l el call start st got} _ hu hp := by
    refine ⟨fun e he => (hp.1 e he).update hu, hp.2.1.update hu, fun hf => ?_⟩
    exact (hp.2.2 (StoredLog.FloorsSafely.of_update hu hf)).grow (updatedLog_sameHead l el) hu.grows
  pages_initial _ := ⟨by simp, by simp [StoredLog.Settled], fun _ => Covering.initial⟩
  pages_asks {l store call start st q got lo hi st' q'} h _ _ hstop hu hp hserved htr hasks := by
    obtain rfl : hi = none := by
      have hnone := hserved.stop
      rw [hstop, servedBound_none, Except.ok.injEq] at hnone
      exact hnone.symm
    refine ⟨fun e he => ?_, fun e he => ?_, fun hf => ?_⟩
    · rcases List.mem_append.mp he with he | he
      · exact hp.1 e he
      · exact ⟨e, StoredLog.mem_entries_of_mem_page he, rfl⟩
    · rcases List.mem_append.mp he with he | he
      · exact hp.2.1 e he
      · exact StoredLog.settled_page h htr e he
    · exact (hp.2.2 hf).asks hu h (hf.exact hp.1) hserved htr hasks
  cursor_stops {l store call start st q got lo hi e} _ _ _ _ _ hp _ he v hv := by
    obtain rfl := Option.some.inj hv
    rcases List.mem_append.mp he.mem with he | he
    · exact hp.1 e he
    · exact ⟨e, StoredLog.mem_entries_of_mem_page he, rfl⟩

/-! ## 2. A complete fetch

When the last page was a plain success there is nothing beyond it, and the pages cover everything
from the bound on.  They may show old rows at the frontier, but the last page shows the frontier as
it is. -/

section Covered

variable {cfg : Settings} {serverId : ℤ} {h : LogHeader} {s s' : Engine} {log : StoredLog}
  {f : Flight} {got : List Entry} {lo : Option Value} {result : LogDataResult}
  {cursor : Option Value}

/-- A row strictly beyond the cursor is at or beyond the bound that the store reads.  For an
increasing log flooring goes the right way; for a decreasing one the bound must be exact. -/
theorem startKey_le {last : Option Value} {lo₀ : Option Value} {e : Entry}
    (hord : ∀ v, last = some v → (aware v).Orders log.indexType)
    (hcur : ∀ v, last = some v → log.direction = .increasing ∨ Exact v)
    (hlo₀ : servedBound log.indexType last = .ok lo₀) (he : log.isBeyond last e = true) :
    startKey log.direction lo₀ ≤ (log.entryKey e : WithBot ℤ) := by
  cases last with
  | none =>
    rw [servedBound_none, Except.ok.injEq] at hlo₀
    subst hlo₀
    exact bot_le
  | some v =>
    have hv := hord v rfl
    rw [servedBound_of_orders hv, Except.ok.injEq] at hlo₀
    subst hlo₀
    rw [startKey_some (wire_orders hv)]
    have hle := growthKey_wire_le log.direction (hcur v rfl)
    simp only [StoredLog.isBeyond, Option.all_some, decide_eq_true_eq] at he
    exact WithBot.coe_le_coe.mpr (hle.trans he.le)

/-- **After a page that was not cut off, every readable row beyond the cursor is in the block**, as
it is stored. -/
theorem Engine.Completes.covers
    (hi : s.Inv cfg serverId (coveredPages cfg.maxReturnNodes) h log)
    (hc : Engine.Completes cfg serverId (coveredPages cfg.maxReturnNodes) h log s s' f got lo result
      cursor)
    (hfloor : log.FloorsSafely)
    (hwhole : (log.page lo none f.task.call.maxReturnNodes).2 = false) {e : Entry}
    (he : e ∈ log.table) (hr : log.reads e = true)
    (hbeyond : log.isBeyond (pollState serverId h s.warm).lastIndex e = true) :
    decodedRow e ∈ result.block.rows := by
  obtain ⟨hindices, -, hcov⟩ := hc.pages
  obtain ⟨lo₀, hlo₀⟩ := hc.underway.start_served hc.served.start
  have hret := hc.stops.returned
  have hcomplete : ∀ {g : Entry}, log.reads g = true → _ := fun {g} hg =>
    (hcov hfloor).complete hc.underway (hfloor.exact hindices) hc.served hwhole hlo₀ (e := g) hg
  have hgot := (hcomplete hr).1 (by rw [StoredLog.tableTo_none]; exact he)
    (startKey_le hi.ordered (fun v hv => (hi.cursor v hv).exact hfloor) hlo₀ hbeyond)
  -- the row of this index comes from a collected entry, and there is no other one of that index
  obtain ⟨row, hrow, hindex⟩ := hret.index e hgot hr
  obtain ⟨g, hg, hrg, rfl⟩ := hret.row row hrow
  have hgt := (hcomplete hrg).2 hg
  rw [StoredLog.tableTo_none] at hgt
  rw [decodedRow_isSome hrg, Option.some.injEq] at hindex
  have hge : g = e := (log.table_ordered hi.disciplined).eq_of_key hgt he
    (by rw [StoredLog.entryKey, StoredLog.entryKey, hindex])
  exact hge ▸ hrow

/-- A row of the block is the decoded row of a stored one. -/
theorem Engine.Completes.row_stored
    (hc : Engine.Completes cfg serverId (coveredPages cfg.maxReturnNodes) h log s s' f got lo result
      cursor) {row : Row} (hrow : row ∈ result.block.rows) :
    ∃ e ∈ log.table, visible e = true ∧ row = decodedRow e := by
  obtain ⟨e, he, hr, rfl⟩ := hc.stops.returned.row row hrow
  have hv : visible e = true := by
    rw [StoredLog.reads, Bool.and_eq_true] at hr
    exact hr.2
  refine ⟨e, ?_, hv, rfl⟩
  rcases List.mem_append.mp he with he | he
  · exact (hc.pages.2.1 e he hr).1
  · exact StoredLog.mem_table.mpr (StoredLog.mem_entries_of_mem_page he)

/-- **Every reading of a readable row beyond the cursor is handed on** after a page that was not
cut off. -/
theorem Engine.Completes.hands_on
    (hi : s.Inv cfg serverId (coveredPages cfg.maxReturnNodes) h log)
    (hc : Engine.Completes cfg serverId (coveredPages cfg.maxReturnNodes) h log s s' f got lo result
      cursor)
    (hfloor : log.FloorsSafely) (hcode : (if (log.page lo none f.task.call.maxReturnNodes).2 then rcPartialSuccess
      else rcSuccess) = rcSuccess) {e : Entry} (he : e ∈ log.table) (hv : visible e = true)
    (hbeyond : log.isBeyond (pollState serverId h s.warm).lastIndex e = true)
    {x : Str × Value × Option Float64 × Option Str} (hx : x ∈ log.readings e) :
    ∃ y ∈ newSamples result.block log.direction (pollState serverId h s.warm).lastIndex,
      y.datum = x := by
  have hwhole : (log.page lo none f.task.call.maxReturnNodes).2 = false := by
    cases htr : (log.page lo none f.task.call.maxReturnNodes).2 with
    | false => rfl
    | true =>
      rw [htr] at hcode
      exact absurd hcode (by decide)
  by_cases hcols : log.columns = none
  · rw [StoredLog.readings, hcols] at hx
    exact absurd hx (by simp)
  · have hr : log.reads e = true := by
      rw [StoredLog.reads, hv, Option.isSome_iff_ne_none.mpr hcols, Bool.and_self]
    have hrow := hc.covers hi hfloor hwhole he hr hbeyond
    have hhead := (hc.stops.returned.header (List.ne_nil_of_mem hrow)).1
    rw [← samplesOf_decodedRow hhead hv] at hx
    obtain ⟨y, hy, rfl⟩ := List.mem_map.mp hx
    refine ⟨y, List.mem_flatMap.mpr ⟨decodedRow e, ?_, hy⟩, rfl⟩
    rw [List.mem_filter, beyond_decodedRow hv]
    exact ⟨hrow, hbeyond⟩

end Covered

/-- Every reading stored beyond a cursor (at or beyond it, if `boundary` is set) has been handed
on. -/
def StoredLog.AllHanded (log : StoredLog) (boundary : Bool) (start : Option Value)
    (handed : List CurveSample) : Prop :=
  ∀ e ∈ log.table,
    (∀ v ∈ start, growthKey log.direction v < log.entryKey e ∨
      boundary = true ∧ growthKey log.direction v = log.entryKey e) →
    ∀ x ∈ log.readings e, ∃ y ∈ handed, y.datum = x

instance (log : StoredLog) (boundary : Bool) (start : Option Value) (handed : List CurveSample) :
    Decidable (log.AllHanded boundary start handed) :=
  inferInstanceAs (Decidable (∀ e ∈ log.table, _))

section Run

variable {cfg : Settings} {serverId : ℤ} {h : LogHeader} {s s' : Engine} {log : StoredLog}

/-- The store appends rows to the log beyond its frontier or rewrites the frontier row. -/
abbrev Engine.GrowsAtFrontier (cfg : Settings) (serverId : ℤ) (h : LogHeader) :
    Engine → Engine.Event → Prop :=
  Engine.Allows (coveredPages cfg.maxReturnNodes) serverId h

instance (s : Engine) : (e : Engine.Event) → Decidable (Engine.GrowsAtFrontier cfg serverId h s e)
  | .update el => inferInstanceAs (Decidable (elemKey el = h.logKey →
      ∀ log ∈ s.server.findLog h.logKey, log.Extends el))
  | .begin h' => inferInstanceAs (Decidable (headerKey serverId h' = headerKey serverId h → h' = h))
  | .answer _ => inferInstanceAs (Decidable True)
  | .fail _ _ => inferInstanceAs (Decidable True)

/-- **A complete fetch hands on everything beyond the cursor it began from.**  In every run in
which the store appends to a log or rewrites its frontier row, a call whose last page was a plain
success leaves no reading of a readable row strictly beyond its start behind, unless the log is one
that a floored bound can skip a row of.

The readings are those that the log has when the call completes.  A row that was at the frontier
when an earlier page showed it, and has been rewritten since, is shown again by a later page,
because each page begins with the last row of the one before. -/
theorem beyond_cursor_handed {server : MockStore} {warm : RingBufferStore}
    (hfind : server.findLog log.key = some log) (hsole : server.Sole log.key)
    (horder : log.Orderable) (hd : Discovered serverId h log warm) {es : List Engine.Event}
    (hrun : Run (Engine.next cfg serverId) (Engine.GrowsAtFrontier cfg serverId h)
      (Engine.idle server warm) es s)
    (hstep : s.next cfg serverId (.answer (headerKey serverId h)) = some s') {c : Ingested}
    (hdone : s'.completed = s.completed ++ [c]) (hcode : c.code = rcSuccess) :
    ∃ log', s'.server.findLog log.key = some log' ∧ (log'.FloorsSafely →
      ∀ e ∈ log'.table, visible e = true → log'.isBeyond c.start e = true →
        ∀ x ∈ log'.readings e, ∃ y ∈ s'.handed (headerKey serverId h), y.datum = x) := by
  obtain ⟨log', f, got, lo, result, cursor, hfind', hi, hc, rfl⟩ :=
    completes_of_run (D := coveredPages cfg.maxReturnNodes) hfind hsole horder hd hrun hstep hdone
  refine ⟨log', hfind', fun hfloor e he hv hbeyond x hx => ?_⟩
  obtain ⟨y, hy, hyx⟩ := hc.hands_on hi hfloor hcode he hv hbeyond hx
  refine ⟨y, ?_, hyx⟩
  rw [hc.handed]
  exact List.mem_append_right _ hy

end Run

/-! The boundary row gets a late cell, and a further row comes after it. -/

def lateStore : MockStore :=
  storeOf [logElem "L" .measuredDepth .increasing ["DEPT", "ROP", "WOB"] ["10,1,-999.25"]]

theorem lateStore_logs_ne_nil : lateStore.logs ≠ [] := by decide +kernel

def lateLog : StoredLog := lateStore.logs.head lateStore_logs_ne_nil

theorem lateLog_header_isSome : (lateLog.renderHeader.bind parseLogHeader).toOption.isSome = true := by
  decide +kernel

def lateHeader : LogHeader := Option.get _ lateLog_header_isSome

def lateKey : LogKey := headerKey 1 lateHeader

def lateUpdate (line : String) : Engine.Event :=
  .update (logElem "L" .measuredDepth .increasing ["DEPT", "ROP", "WOB"] [line])

def lateIngests : List Engine.Event :=
  [.begin lateHeader, .answer lateKey, lateUpdate "10,1,5", lateUpdate "20,3,4", .begin lateHeader]

theorem lateIngests_isSome : (replay (Engine.next pageSettings 1)
    (fun s e => decide (Engine.GrowsAtFrontier pageSettings 1 lateHeader s e))
    (Engine.idle lateStore (.init 2000)) lateIngests).isSome = true := by decide +kernel

def lateFetching : Engine := Option.get _ lateIngests_isSome

theorem lateFetched_isSome :
    (lateFetching.next pageSettings 1 (.answer lateKey)).isSome = true := by decide +kernel

def lateFetched : Engine := Option.get _ lateFetched_isSome

/-- The record of the second call. -/
def lateRecord : Ingested where
  key := lateKey
  start := some (indexOf .measuredDepth "10")
  code := rcSuccess
  samples := [("ROP", "3"), ("WOB", "4")].map fun c =>
    ⟨c.1.toList, indexOf .measuredDepth "20", float? c.2.toList, none, none⟩
  cursor := some (indexOf .measuredDepth "20")

/-- The second call hands on the row at 20. -/
theorem beyond_cursor_handed_lateLog :
    ∃ log', lateFetched.server.findLog lateLog.key = some log' ∧ (log'.FloorsSafely →
      ∀ e ∈ log'.table, visible e = true → log'.isBeyond lateRecord.start e = true →
        ∀ x ∈ log'.readings e, ∃ y ∈ lateFetched.handed lateKey, y.datum = x) :=
  beyond_cursor_handed (MockStore.findLog_of_mem (List.head_mem _)) (by decide +kernel)
    (by unfold StoredLog.Orderable; decide +kernel)
    ⟨hasHeader_get lateLog_header_isSome, rfl, fun _ _ h => absurd h (by simp [RingBufferStore.init,
      RingBufferStore.getLogState, Dict.get?])⟩
    (Run.of_isSome lateIngests_isSome) (Option.some_get lateFetched_isSome).symm
    (show lateFetched.completed = lateFetching.completed ++ [lateRecord] by decide +kernel) rfl

/-- Whether the last call was a plain success and has left a reading at or beyond its start
behind. -/
def Engine.leavesBehind (s : Engine) (key : LogKey) (logKey : Str × Str × Str) : Bool :=
  match s.completed.getLast?, s.server.findLog logKey with
  | some c, some log => decide (c.code = rcSuccess ∧ ¬log.AllHanded true c.start (s.handed key))
  | _, _ => false

/-- Two calls of a log with one page each, and an update at or beyond the frontier between them. -/
def callsAround (t : IndexType) (d : Direction) (line update : String) : Option Bool := do
  let store := storeOf [logElem "L" t d ["INDEX", "ROP", "WOB"] [line]]
  let log ← store.logs.head?
  let h ← (log.renderHeader.bind parseLogHeader).toOption
  let key := headerKey 1 h
  let el := logElem "L" t d ["INDEX", "ROP", "WOB"] [update]
  if log.Extends el then
    let s ← replay (Engine.next pageSettings 1) (fun _ _ => true) (Engine.idle store (.init 2000))
      [.begin h, .answer key, .update el, .begin h, .answer key]
    some (s.leavesBehind key log.key)
  else none

/-- **A late cell of the boundary row is lost**, although the call that fetched it was complete.  So
is a row of a decreasing log between the cursor and the floored start bound, and one whose index
is written as a null sentinel. -/
theorem late_cells_lost :
    callsAround .measuredDepth .increasing "10,1,-999.25" "10,1,5" = some true ∧
    callsAround .dateTime .decreasing "2024-01-01T00:00:00.0015Z,1,1"
      "2024-01-01T00:00:00.0012Z,2,2" = some true ∧
    callsAround .measuredDepth .increasing "-1000,1,1" "-999.25,2,2" = some true := by
  decide +kernel

end WitsmlViewer
