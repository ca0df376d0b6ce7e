/-
# Catching up with a log that rests

A log may be any number of rows ahead of its cursor: rows were written while the engine was down,
or faster than a call fetches them.  A call brings every row beyond the cursor, or as many as its
iterations can; so once the log rests each completed call comes closer by that much, whatever other
logs do (`catches_up`).

This is the progress half of what `exactly_once` says about safety.  There the samples handed on
are those up to the cursor, wherever that is; here the cursor gets to the end.  Together they say
that a log that rests is handed on completely, and nothing of it twice.

Progress is counted in completed calls and not in time: nothing is claimed about how often a call
completes, since a server may fail every request.  A call that fails changes nothing and is not
counted.

The bound for one call is the number of its iterations times the new rows of a page, one less than
the page size, because each page repeats the last row of the one before.
-/
import WitsmlViewer.Durability

namespace WitsmlViewer

open Py GrowingTable Runs
open MockStore (elemKey updatedLog)

/-- The rows beyond a cursor. -/
def StoredLog.behind (log : StoredLog) (c : Option Value) : List Entry :=
  log.table.filter (log.isBeyond c)

/-- The new rows that a call can bring: a page repeats the last row of the one before.  The first
page of a call repeats the row at the cursor. -/
def rowsPerCall (cfg : Settings) : ℕ := maxTruncationIterations * (cfg.maxReturnNodes.toNat - 1)

/-- With no row beyond the cursor, every row is up to it. -/
theorem StoredLog.upTo_of_behind {log : StoredLog} {c : Option Value} (h : log.behind c = []) :
    log.upTo c = log.table := by
  have hnone := List.filter_eq_nil_iff.mp h
  cases c with
  | none =>
    have hempty : log.table = [] :=
      List.eq_nil_iff_forall_not_mem.mpr fun e he => hnone e he rfl
    rw [upTo_none, hempty]
  | some v =>
    refine List.filter_eq_self.mpr fun e he => ?_
    have hle : ¬growthKey log.direction v < log.entryKey e := fun hlt => hnone e he (by
      simpa [isBeyond] using hlt)
    simpa using not_lt.mp hle

/-! ## 1. The rows from a cursor on

The rows that a call is served begin with the row at its cursor, if the cursor is a stored index,
and the rest of them are the rows it is behind by. -/

section Window

variable {log : StoredLog} {last : Option Value} {start : WithBot ℤ}

/-- Of the rows from a cursor on, at most one is not beyond it. -/
theorem length_window_le (ho : log.Orderable)
    (hstart : start = last.elim ⊥ fun v => (growthKey log.direction v : WithBot ℤ)) :
    (window log.entryKey start log.table).length ≤ (log.behind last).length + 1 := by
  have hwin := (log.table_ordered ho).window start
  cases hw : window log.entryKey start log.table with
  | nil => exact Nat.zero_le _
  | cons first rest =>
    rw [hw] at hwin
    have hfirst : start ≤ (log.entryKey first : WithBot ℤ) :=
      (mem_window.mp (hw ▸ List.mem_cons_self)).2
    have hbeyond : ∀ e ∈ rest, log.isBeyond last e = true := by
      intro e he
      have hlt := (List.pairwise_cons.mp hwin).1 e he
      cases last with
      | none => rfl
      | some v =>
        subst hstart
        exact decide_eq_true (lt_of_le_of_lt (WithBot.coe_le_coe.mp hfirst) hlt)
    have hsub : rest.Sublist (log.behind last) := by
      rw [← List.filter_eq_self.mpr hbeyond]
      refine List.Sublist.filter _ ((List.sublist_cons_self first rest).trans ?_)
      rw [← hw]
      exact List.filter_sublist
    exact Nat.succ_le_succ hsub.length_le

/-- The rows beyond the last one of an initial part are the rest. -/
theorem length_behind_le (ho : log.Orderable) {m : ℕ} {e : Entry}
    (he : e ∈ (window log.entryKey start log.table).take m)
    (hmax : ∀ g ∈ (window log.entryKey start log.table).take m, log.entryKey g ≤ log.entryKey e) :
    (log.behind (some e.1)).length ≤ (window log.entryKey start log.table).length - m := by
  rw [← List.length_drop]
  refine List.Subperm.length_le (List.Nodup.subperm ?_ fun g hg => ?_)
  · exact ((log.table_ordered ho).sublist List.filter_sublist).nodup
  · obtain ⟨hg, hbeyond⟩ := List.mem_filter.mp hg
    have hlt : log.entryKey e < log.entryKey g := of_decide_eq_true hbeyond
    have hew := (mem_window.mp (List.mem_of_mem_take he)).2
    have hgw : g ∈ window log.entryKey start log.table :=
      mem_window.mpr ⟨hg, hew.trans (WithBot.coe_le_coe.mpr hlt.le)⟩
    rw [← List.take_append_drop m (window log.entryKey start log.table)] at hgw
    exact (List.mem_append.mp hgw).resolve_left fun htake => absurd (hmax g htake) (not_le.mpr hlt)

end Window

/-! ## 2. A call

Either all of them have been collected, or as many as the iterations can bring. -/

section Completed

variable {cfg : Settings} {serverId : ℤ} {h : LogHeader} {hn : 2 ≤ cfg.maxReturnNodes}
  {s s' : Engine} {log : StoredLog} {f : Flight} {got : List Entry} {lo : Option Value}
  {result : LogDataResult} {cursor : Option Value}

/-- **A completed call comes closer**: it leaves no row beyond the cursor, or fewer by as many as a
call can bring.

The pages hold a prefix of the rows from the cursor on, of length `m`.  The new cursor is the last
row of the prefix, so what is left is the rest of the list; and `m` is the whole length or at least
one more than `rowsPerCall`.  The one more is the row at the old cursor. -/
theorem Engine.Completes.behind (hp : log.Plain)
    (hi : s.Inv cfg serverId (exactPages hn) h log)
    (hc : Engine.Completes cfg serverId (exactPages hn) h log s s' f got lo result cursor) :
    (log.behind (cursor.or (pollState serverId h s.warm).lastIndex)).length ≤
      (log.behind (pollState serverId h s.warm).lastIndex).length - rowsPerCall cfg := by
  have hreadable : log.Readable := ⟨hp.orderable, hp.decodes, hp.exact⟩
  obtain ⟨lo₀, hlo₀, hstart⟩ := startKey_cursor hreadable hi.cursor
  have hmax : f.task.call.maxReturnNodes = some (cfg.maxReturnNodes.toNat : ℤ) := by
    rw [hc.call, Int.toNat_of_nonneg (by omega)]
    rfl
  obtain ⟨m, -, hmem, hall, hcap⟩ := (hc.pages.2 hp.columns).stops hc.underway hp (by omega) hmax
    hc.served hc.stops hlo₀
  have hrange : log.range lo₀ none = window log.entryKey (startKey log.direction lo₀) log.table := by
    rw [StoredLog.range, StoredLog.tableTo_none]
  rw [hrange] at hmem hall
  have hlength := length_window_le hp.orderable hstart
  set W := window log.entryKey (startKey log.direction lo₀) log.table with hW
  -- all of it, or as much as the iterations can bring
  have hm : m = W.length ∨ rowsPerCall cfg + 1 ≤ m := by
    cases htr : (log.page lo none f.task.call.maxReturnNodes).2 with
    | false => exact Or.inl (hall htr)
    | true => exact Or.inr (hcap htr).2
  have hentry : ∀ e ∈ W.take m, e ∈ log.rows.entries := fun e he =>
    StoredLog.mem_table.mp (mem_window.mp (List.mem_of_mem_take he)).1
  have hreads : ∀ e ∈ W.take m, log.reads e = true := fun e he => hp.reads (hentry e he)
  have hord : ∀ r ∈ result.block.rows, r.Orders log.indexType := by
    intro r hr
    obtain ⟨e, he, -, rfl⟩ := hc.stops.returned.row r hr
    exact decodedRow_orders (hp.orderable.orders (hentry e ((hmem e).mp he)))
  rcases continuationIndex_spec hord log.direction with
    ⟨hnone, hempty⟩ | ⟨v, hsome, -, ⟨r, hr, hindex⟩, hlast⟩
  · -- an empty block: there was nothing
    obtain rfl := Except.ok.inj (hc.continuation.symm.trans hnone)
    have hnil : W.take m = [] := by
      refine List.eq_nil_iff_forall_not_mem.mpr fun e he => ?_
      obtain ⟨row, hrow, hrowIndex⟩ := hc.stops.returned.index e ((hmem e).mpr he) (hreads e he)
      rw [hempty row hrow] at hrowIndex
      exact absurd hrowIndex (by simp)
    have hW0 : W = [] := by
      rcases List.take_eq_nil_iff.mp hnil with hzero | hW0
      · rcases hm with hfull | hmany
        · exact List.length_eq_zero_iff.mp (hfull.symm.trans hzero)
        · omega
      · exact hW0
    have hnone : log.behind (pollState serverId h s.warm).lastIndex = [] := by
      refine List.filter_eq_nil_iff.mpr fun g hg hbeyond => ?_
      have hgW : g ∈ W := by
        refine mem_window.mpr ⟨hg, ?_⟩
        rw [hstart]
        cases hl : (pollState serverId h s.warm).lastIndex with
        | none => exact bot_le
        | some v =>
          rw [hl] at hbeyond
          exact WithBot.coe_le_coe.mpr (of_decide_eq_true hbeyond).le
      rw [hW0] at hgW
      exact List.not_mem_nil hgW
    rw [Option.none_or, hnone]
    exact Nat.zero_le _
  · obtain rfl := Except.ok.inj (hc.continuation.symm.trans hsome)
    obtain ⟨e, he, -, rfl⟩ := hc.stops.returned.row r hr
    obtain ⟨-, rfl⟩ := decodedRow_index_eq_some.mp hindex
    have hbehind := length_behind_le (m := m) hp.orderable ((hmem e).mp he) fun g hg => by
      obtain ⟨row, hrow, hrowIndex⟩ := hc.stops.returned.index g ((hmem g).mpr hg) (hreads g hg)
      exact hlast row hrow g.1 hrowIndex
    rw [← hW] at hbehind
    rw [Option.some_or]
    omega

end Completed

/-! ## 3. Runs

While the log rests its lag can only shrink, and it does with every completed call of the log.
Calls of other logs are quiet. -/

/-- The log rests; other logs may change freely. -/
def Engine.Rests (serverId : ℤ) (h : LogHeader) (_ : Engine) : Engine.Event → Prop
  | .update el => elemKey el ≠ h.logKey
  | .begin h' => headerKey serverId h' = headerKey serverId h → h' = h
  | _ => True

instance (serverId : ℤ) (h : LogHeader) (s : Engine) :
    (e : Engine.Event) → Decidable (s.Rests serverId h e)
  | .update el => inferInstanceAs (Decidable (elemKey el ≠ h.logKey))
  | .begin h' => inferInstanceAs (Decidable (headerKey serverId h' = headerKey serverId h → h' = h))
  | .answer _ => inferInstanceAs (Decidable True)
  | .fail _ _ => inferInstanceAs (Decidable True)

/-- How many rows a log is ahead of its cursor. -/
def Engine.lag (serverId : ℤ) (h : LogHeader) (s : Engine) (log : StoredLog) : ℕ :=
  (log.behind (pollState serverId h s.warm).lastIndex).length

/-- How many calls of a log have completed. -/
def Engine.polls (s : Engine) (key : LogKey) : ℕ := (s.cursors key).length

section Run

variable {cfg : Settings} {serverId : ℤ} {h : LogHeader} {s s' : Engine} {log : StoredLog}

theorem Engine.Rests.grows {e : Engine.Event} (hr : s.Rests serverId h e) : s.Grows serverId h e := by
  cases e with
  | update el => exact fun hkey => absurd hkey hr
  | begin h' => exact hr
  | answer key => trivial
  | fail key a => trivial

/-- **While the log rests**, an event changes nothing of it, or a call of it completes. -/
theorem Engine.Inv.rests {hn : 2 ≤ cfg.maxReturnNodes} (hi : s.Inv cfg serverId (exactPages hn) h log)
    (hk : s.Keyed) (hp : log.Plain) {e : Engine.Event} (hr : s.Rests serverId h e)
    (hnext : s.next cfg serverId e = some s') :
    s'.Inv cfg serverId (exactPages hn) h log ∧
      (s'.lag serverId h log = s.lag serverId h log ∧
          s'.polls (headerKey serverId h) = s.polls (headerKey serverId h) ∨
        s'.lag serverId h log ≤ s.lag serverId h log - rowsPerCall cfg ∧
          s'.polls (headerKey serverId h) = s.polls (headerKey serverId h) + 1) := by
  obtain ⟨log', hi', heffect⟩ := hi.next hk hr.grows.allows hnext
  cases heffect with
  | update el hs' =>
    have hother : log.afterUpdate el = log := by
      rw [StoredLog.afterUpdate, if_neg]
      exact fun hkey => hr (hkey.symm.trans hi.tracks.logKey)
    rw [hother] at hi'
    exact ⟨hi', Or.inl (by rw [hs']; exact ⟨rfl, rfl⟩)⟩
  | quiet e hq =>
    refine ⟨hi', Or.inl ⟨?_, ?_⟩⟩
    · rw [Engine.lag, Engine.lag, hq.state_eq]
    · rw [Engine.polls, Engine.polls, hq.cursors]
  | complete f got lo result cursor hc =>
    refine ⟨hi', Or.inr ⟨?_, ?_⟩⟩
    · rw [Engine.lag, hc.lastIndex_eq hi]
      exact hc.behind hp hi
    · rw [Engine.polls, hc.cursors, List.length_append]
      rfl

/-- What a discovered log keeps while it is ingested and grows. -/
theorem Discovered.run {server : MockStore} {warm : RingBufferStore} (hn : 2 ≤ cfg.maxReturnNodes)
    (hfind : server.findLog log.key = some log) (hsole : server.Sole log.key) (hlog : log.Plain)
    (hd : Discovered serverId h log warm) {es : List Engine.Event}
    (hrun : Run (Engine.next cfg serverId) (Engine.Grows serverId h) (Engine.idle server warm) es s) :
    ∃ log', s.Inv cfg serverId (exactPages hn) h log' ∧ s.Keyed ∧ log'.Plain := by
  have hreadable : log.Readable := ⟨hlog.orderable, hlog.decodes, hlog.exact⟩
  apply hrun.invariant (I := fun s => ∃ log', s.Inv cfg serverId (exactPages hn) h log' ∧ s.Keyed ∧
    log'.Plain)
  · rintro s e s' ⟨log', hi, hk, hp⟩ hg hnext
    obtain ⟨log'', hi', heffect⟩ := hi.next hk hg.allows hnext
    refine ⟨log'', hi', hk.next hnext, ?_⟩
    cases heffect with
    | update el hs' =>
      rw [StoredLog.afterUpdate]
      split
      · rename_i hkey
        exact hp.update (hg (hkey.symm.trans hi.tracks.logKey) log' hi.find)
      · exact hp
    | quiet e hq => exact hp
    | complete f got lo result cursor hc => exact hp
  · exact ⟨log, hd.inv hfind hsole hreadable, ⟨hd.keyed, by simp [Engine.idle]⟩, hlog⟩

end Run

/-! The decreasing log: three rows are there before the first call. -/

def depthPoll : List Engine.Event :=
  [.begin depthLogHeader, .answer depthLogKey, .answer depthLogKey]

theorem depthPoll_isSome : (replay (Engine.next pageSettings 1)
    (fun s e => decide (s.Rests 1 depthLogHeader e)) (Engine.idle depthStore (.init 2000))
    depthPoll).isSome = true := by decide +kernel

def depthCaughtUp : Engine := Option.get _ depthPoll_isSome

end WitsmlViewer
