/-
# A call reaches its cursor

Rows that have been stored stay where they are while a log is only appended to.  A page that has
once brought a row shows it again when it starts at the row's own rendered index, since fewer rows
precede the row there.  So on an increasing log a resumed call gets the row of its cursor again,
with its first page; on a decreasing one everything it gets is at the cursor or beyond it.

Either way the cursor that a completed call leaves is not behind the one it began from
(`Engine.Completes.onward`), whatever the cap on a page is and however the indices are spread over
milliseconds.

This is the condition of `polls_no_duplicates`, proved for the store at hand.  It is what the
durable ledger rests on: a cursor that falls back would hand on, and store, what is stored already.

The point that needs care is flooring.  A start bound is floored to the millisecond, so a page may
begin with rows before the cursor, and with a small cap it might end before the cursor is reached.
It does not, because the page that brought the row began at or before the same floored bound and
had room for everything up to the row; and appended rows come after it.
-/
import WitsmlViewer.ExactlyOnce

namespace WitsmlViewer

open Py GrowingTable Runs
open MockStore (elemKey updatedLog)

/-! ## 1. A row on the page that starts at it

How many rows precede a row on a page, and that this number does not grow. -/

/-- A row is on a page if and only if fewer rows than the cap precede it. -/
theorem mem_pageOf_iff {key : Entry → ℤ} {w : List Entry} (h : Ordered key w) {n : ℤ} {e : Entry} :
    e ∈ (pageOf (some n) w).1 ↔
      e ∈ w ∧ (0 < n → ((w.filter fun f => decide (key f < key e)).length : ℤ) < n) := by
  have hshort : e ∈ w → (w.filter fun f => decide (key f < key e)).length < w.length := by
    intro he
    refine lt_of_le_of_ne (List.length_filter_le _ _) fun heq => ?_
    have hall := List.length_filter_eq_length_iff.mp heq e he
    simp at hall
  rw [pageOf]
  cases hf : (some n).filter fun n => decide (0 < n ∧ n < (w.length : ℤ)) with
  | some m =>
    obtain ⟨hm, hlt⟩ := Option.filter_eq_some_iff.mp hf
    obtain rfl := Option.some.inj hm
    have hbounds := of_decide_eq_true hlt
    change e ∈ w.take n.toNat ↔ _
    rw [h.mem_take_iff]
    refine and_congr_right fun _ => ⟨fun hcount _ => by omega, fun hcount => ?_⟩
    have := hcount hbounds.1
    omega
  | none =>
    refine ⟨fun he => ⟨he, fun hpos => ?_⟩, And.left⟩
    have hlong := Option.filter_eq_none_iff.mp hf n rfl
    have hcount := hshort he
    simp only [decide_eq_true_eq, not_and] at hlong
    have := hlong hpos
    omega

/-- Flooring keeps what is at or beyond a floored bound there. -/
theorem rank_wire_le_wire {t : IndexType} {v w : Value} (hv : v.Orders t) (hw : w.Orders t)
    (h : (wire v).rank ≤ w.rank) : (wire v).rank ≤ (wire w).rank := by
  cases w with
  | num x => exact h
  | text s => exact h
  | dt d =>
    cases v with
    | num x => exact absurd (hv.1.symm.trans hw.1) (by decide)
    | text s => exact hv.elim
    | dt d' =>
      simp only [wire, Value.rank, Datetime.replaceUtc_micros, Datetime.floorMillis_micros] at h ⊢
      omega

namespace StoredLog

variable {log : StoredLog} {el : LogElem} {n : ℤ} {e : Entry}

/-- On an increasing log, the page that starts at the rendered index of a row shows the row. -/
def ShowsAgain (log : StoredLog) (n : ℤ) (e : Entry) : Prop :=
  log.direction = .increasing → e ∈ (log.page (some (wire e.1)) none (some n)).1

/-- The rows that a page shows before a row. -/
def precede (log : StoredLog) (start : WithBot ℤ) (e : Entry) : List Entry :=
  (window log.entryKey start log.table).filter fun f => decide (log.entryKey f < log.entryKey e)

/-- The same for the page that the store serves. -/
theorem mem_page_iff (ho : log.Orderable) {start : Option Value} :
    e ∈ (log.page start none (some n)).1 ↔
      (e ∈ log.rows.entries ∧ startKey log.direction start ≤ (log.entryKey e : WithBot ℤ)) ∧
        (0 < n → ((log.precede (startKey log.direction start) e).length : ℤ) < n) := by
  rw [page, tableTo_none, mem_pageOf_iff ((log.table_ordered ho).window _), mem_window, mem_table]
  rfl

/-- A rendered index is at or before the index, on an increasing log. -/
theorem startKey_wire_le (ho : log.Orderable) (he : e ∈ log.rows.entries)
    (hd : log.direction = .increasing) :
    startKey log.direction (some (wire e.1)) ≤ (log.entryKey e : WithBot ℤ) := by
  have horder := ho.orders he
  have hwire := wire_orders (show (aware e.1).Orders log.indexType by rwa [aware_of_orders horder])
  rw [startKey_some hwire, WithBot.coe_le_coe]
  exact growthKey_wire_le _ (.inl hd)

/-- To be shown again is to be preceded by few enough rows. -/
theorem showsAgain_iff (ho : log.Orderable) (he : e ∈ log.rows.entries) :
    log.ShowsAgain n e ↔ (log.direction = .increasing → 0 < n →
      ((log.precede (startKey log.direction (some (wire e.1))) e).length : ℤ) < n) := by
  refine forall_congr' fun hd => ?_
  rw [mem_page_iff ho]
  exact and_iff_right ⟨he, startKey_wire_le ho he hd⟩

/-- A row that a page brings is shown again by the page that starts at it. -/
theorem showsAgain_of_mem_page (ho : log.Orderable) {start : Option Value}
    (hstart : log.direction = .increasing →
      startKey log.direction start ≤ startKey log.direction (some (wire e.1)))
    (h : e ∈ (log.page start none (some n)).1) : log.ShowsAgain n e := by
  obtain ⟨⟨he, -⟩, hcount⟩ := (mem_page_iff ho).mp h
  refine (showsAgain_iff ho he).mpr fun hd hpos => lt_of_le_of_lt ?_ (hcount hpos)
  have hsub : (log.precede (startKey log.direction (some (wire e.1))) e).Sublist
      (log.precede (startKey log.direction start) e) := by
    refine List.Sublist.filter _ (List.monotone_filter_right _ fun f hf => ?_)
    exact decide_eq_true ((hstart hd).trans (of_decide_eq_true hf))
  exact_mod_cast hsub.length_le

theorem Appends.mem_entries (ha : log.Appends el) (he : e ∈ log.rows.entries) :
    e ∈ (updatedLog el log).rows.entries := mem_table.mp (ha.mem.1 e (mem_table.mpr he))

/-- Appended rows precede none that was there. -/
theorem precede_updatedLog (ho : log.Orderable) (ha : log.Appends el) (start : WithBot ℤ)
    (he : e ∈ log.rows.entries) : (updatedLog el log).precede start e = log.precede start e := by
  have ho' : (updatedLog el log).Orderable := ho.update fun f hf => (ha f hf).1
  have hkey : (updatedLog el log).entryKey = log.entryKey := (updatedLog_sameHead log el).entryKey
  have hnew := ((updatedLog el log).table_ordered ho').window start
  have hold := (log.table_ordered ho).window start
  have hprecede : Ordered log.entryKey ((updatedLog el log).precede start e) := by
    rw [← hkey]
    exact hnew.sublist List.filter_sublist
  refine hprecede.eq_of_mem_iff (hold.sublist List.filter_sublist) fun f => ?_
  rw [precede, precede, hkey, List.mem_filter, List.mem_filter, mem_window, mem_window,
    decide_eq_true_eq]
  refine ⟨fun ⟨⟨hf, hs⟩, hlt⟩ => ⟨⟨?_, hs⟩, hlt⟩, fun ⟨⟨hf, hs⟩, hlt⟩ => ⟨⟨ha.mem.1 f hf, hs⟩, hlt⟩⟩
  refine (ha.mem.2 f hf).resolve_right fun hbeyond => ?_
  exact absurd (hbeyond e (mem_table.mpr he)) (not_lt.mpr hlt.le)

/-- So a row that is shown again is shown again later. -/
theorem ShowsAgain.update (ho : log.Orderable) (ha : log.Appends el) (he : e ∈ log.rows.entries)
    (h : log.ShowsAgain n e) : (updatedLog el log).ShowsAgain n e := by
  have ho' : (updatedLog el log).Orderable := ho.update fun f hf => (ha f hf).1
  rw [showsAgain_iff ho' (ha.mem_entries he), (updatedLog_sameHead log el).direction,
    precede_updatedLog ho ha _ he]
  exact (showsAgain_iff ho he).mp h

end StoredLog

/-! ## 2. The discipline

The third discipline: a cursor is at a row that can be resumed from, and what a call has collected
reaches the cursor it began from. -/

/-- What has been collected reaches a cursor: on an increasing log its row is there, on a decreasing
one nothing is behind it. -/
structure Reaches (log : StoredLog) (v : Value) (got : List Entry) : Prop where
  row : log.direction = .increasing → ∃ e ∈ got, e.1 = v ∧ log.reads e = true
  beyond : log.direction = .decreasing → ∀ e ∈ got, growthKey log.direction v ≤ log.entryKey e

/-- A row that a cursor can be at: stored, readable, and shown again. -/
structure Resumable (log : StoredLog) (n : ℤ) (e : Entry) : Prop where
  mem : e ∈ log.rows.entries
  reads : log.reads e = true
  again : log.ShowsAgain n e

section Pages

variable {log : StoredLog} {el : LogElem} {n : ℤ} {e : Entry} {call : LogDataCall}
  {start : Option Value} {st : FetchState} {q : LogQuery} {got : List Entry} {lo : Option Value}
  {store : MockStore}

theorem Resumable.update (ho : log.Orderable) (ha : log.Appends el) (h : Resumable log n e) :
    Resumable (updatedLog el log) n e :=
  ⟨ha.mem_entries h.mem, (congrFun (updatedLog_sameHead log el).reads e).trans h.reads,
    h.again.update ho ha h.mem⟩

/-- A page starts behind the rendered index of each of its rows. -/
theorem Underway.startKey_le_wire (hu : Underway call log start st q got) (ho : log.Orderable)
    (hstart : ∀ v, start = some v → ∃ e ∈ log.rows.entries, e.1 = v)
    (hlo : servedBound log.indexType st.cursor = .ok lo) (hd : log.direction = .increasing)
    (he : e ∈ (log.page lo none (some n)).1) :
    startKey log.direction lo ≤ startKey log.direction (some (wire e.1)) := by
  have horders := ho.orders (StoredLog.mem_entries_of_mem_page he)
  have haware : ∀ {v : Value}, v.Orders log.indexType → (aware v).Orders log.indexType := by
    intro v hv
    rwa [aware_of_orders hv]
  have hbehind := ((StoredLog.mem_page_iff ho).mp he).1.2
  have hfrom : ∀ v : Value, v.Orders log.indexType → lo = some (wire v) →
      startKey log.direction lo ≤ startKey log.direction (some (wire e.1)) := by
    rintro v hv rfl
    rw [startKey_some (wire_orders (haware hv)), WithBot.coe_le_coe, StoredLog.entryKey, hd]
      at hbehind
    rw [startKey_some (wire_orders (haware hv)), startKey_some (wire_orders (haware horders)),
      WithBot.coe_le_coe, hd]
    exact rank_wire_le_wire hv horders hbehind
  rcases hu.position with ⟨-, hcur, -⟩ | ⟨f, hf, -, hcur, -⟩
  · rw [hcur] at hlo
    cases hs : start with
    | none =>
      rw [hs, servedBound_none, Except.ok.injEq] at hlo
      rw [← hlo]
      exact bot_le
    | some v =>
      obtain ⟨f, hf, rfl⟩ := hstart v hs
      rw [hs, servedBound_of_orders (haware (ho.orders hf)), Except.ok.injEq] at hlo
      exact hfrom f.1 (ho.orders hf) hlo.symm
  · rw [hcur, servedBound_of_orders (haware (hu.orders f hf)), Except.ok.injEq] at hlo
    exact hfrom f.1 (hu.orders f hf) hlo.symm

/-- The rows of a page can be resumed from. -/
theorem Underway.resumable_page (hu : Underway call log start st q got) (ho : log.Orderable)
    (hstart : ∀ v, start = some v → ∃ e ∈ log.rows.entries, e.1 = v)
    (hlo : servedBound log.indexType st.cursor = .ok lo)
    (he : e ∈ (log.page lo none (some n)).1) (hr : log.reads e = true) : Resumable log n e :=
  ⟨StoredLog.mem_entries_of_mem_page he, hr, StoredLog.showsAgain_of_mem_page ho
    (fun hd => hu.startKey_le_wire ho hstart hlo hd he) he⟩

/-- **The pages of a resumed call reach its cursor.** -/
theorem Underway.reaches_page (hu : Underway call log start st q got) (ho : log.Orderable)
    {v : Value} (hv : start = some v) (hcursor : ∃ e, e.1 = v ∧ Resumable log n e)
    (hgot : got ≠ [] → Reaches log v got) (hlo : servedBound log.indexType st.cursor = .ok lo) :
    Reaches log v (got ++ (log.page lo none (some n)).1) := by
  obtain ⟨c, rfl, hmem, hreads, hagain⟩ := hcursor
  have haware : ∀ {v : Value}, v.Orders log.indexType → (aware v).Orders log.indexType := by
    intro v hv
    rwa [aware_of_orders hv]
  have hfloor : ∀ w : Value, log.direction = .decreasing →
      growthKey log.direction w ≤ growthKey log.direction (wire w) := by
    intro w hd
    rw [hd]
    exact neg_le_neg (rank_wire_le w)
  constructor
  · intro hd
    rcases hu.position with ⟨-, hcur, -⟩ | ⟨f, hf, -⟩
    · rw [hcur, hv, servedBound_of_orders (haware (ho.orders hmem)), Except.ok.injEq] at hlo
      exact ⟨c, List.mem_append_right _ (hlo ▸ hagain hd), rfl, hreads⟩
    · obtain ⟨e, he, hec, hre⟩ := (hgot (List.ne_nil_of_mem hf)).row hd
      exact ⟨e, List.mem_append_left _ he, hec, hre⟩
  · intro hd e he
    rcases List.mem_append.mp he with he | he
    · exact (hgot (List.ne_nil_of_mem he)).beyond hd e he
    · have hbehind := ((StoredLog.mem_page_iff ho).mp he).1.2
      rcases hu.position with ⟨-, hcur, -⟩ | ⟨f, hf, -, hcur, -⟩
      · rw [hcur, hv, servedBound_of_orders (haware (ho.orders hmem)), Except.ok.injEq] at hlo
        rw [← hlo, startKey_some (wire_orders (haware (ho.orders hmem))), WithBot.coe_le_coe]
          at hbehind
        exact (hfloor c.1 hd).trans hbehind
      · rw [hcur, servedBound_of_orders (haware (hu.orders f hf)), Except.ok.injEq] at hlo
        rw [← hlo, startKey_some (wire_orders (haware (hu.orders f hf))), WithBot.coe_le_coe]
          at hbehind
        exact ((hgot (List.ne_nil_of_mem hf)).beyond hd f hf).trans ((hfloor f.1 hd).trans hbehind)

end Pages

/-- Rows are appended; a cursor is at a row that is shown again, and the pages reach it.  The first
page does that; the later ones only have to keep it. -/
def reachingPages (maxNodes : ℤ) : Discipline maxNodes where
  log := StoredLog.Orderable
  update := StoredLog.Appends
  cursor log c := ∀ v, c = some v → ∃ e, e.1 = v ∧ Resumable log maxNodes e
  pages _ log start _ got := (∀ e ∈ got, log.reads e = true → Resumable log maxNodes e) ∧
    ∀ v, start = some v → got ≠ [] → Reaches log v got
  orderable h := h
  fresh _ := by simp
  log_update h hu := h.update fun e he => (hu e he).1
  cursor_update h hu hc v hv := by
    obtain ⟨e, hev, hres⟩ := hc v hv
    exact ⟨e, hev, hres.update h hu⟩
  pages_update {l el call start st got} h hu hp := by
    have hs := updatedLog_sameHead l el
    refine ⟨fun e he hr => ?_, fun v hv hne => ?_⟩
    · rw [hs.reads] at hr
      exact (hp.1 e he hr).update h hu
    · obtain ⟨hrow, hbeyond⟩ := hp.2 v hv hne
      refine ⟨fun hd => ?_, fun hd => ?_⟩
      · rw [hs.reads]
        exact hrow (hs.direction ▸ hd)
      · rw [hs.direction, hs.entryKey]
        exact hbeyond (hs.direction ▸ hd)
  pages_initial _ := ⟨by simp, fun _ _ hne => absurd rfl hne⟩
  pages_asks {l store call start st q got lo hi st' q'} h hcur hmax hstop hu hp hserved htr hasks := by
    obtain rfl : hi = none := by
      have hnone := hserved.stop
      rw [hstop, servedBound_none, Except.ok.injEq] at hnone
      exact hnone.symm
    have hstart : ∀ v, start = some v → ∃ e ∈ l.rows.entries, e.1 = v := by
      intro v hv
      obtain ⟨e, hev, hres⟩ := hcur v hv
      exact ⟨e, hres.mem, hev⟩
    rw [hmax]
    refine ⟨fun e he hr => ?_, fun v hv _ => ?_⟩
    · rcases List.mem_append.mp he with he | he
      · exact hp.1 e he hr
      · exact hu.resumable_page h hstart hserved.start he hr
    · exact hu.reaches_page h hv (hcur v hv) (hp.2 v hv) hserved.start
  cursor_stops {l store call start st q got lo hi e} h hcur hmax hstop hu hp hserved he v hv := by
    obtain rfl : hi = none := by
      have hnone := hserved.stop
      rw [hstop, servedBound_none, Except.ok.injEq] at hnone
      exact hnone.symm
    have hstart : ∀ v, start = some v → ∃ e ∈ l.rows.entries, e.1 = v := by
      intro v hv
      obtain ⟨e, hev, hres⟩ := hcur v hv
      exact ⟨e, hres.mem, hev⟩
    obtain rfl := Option.some.inj hv
    refine ⟨e, rfl, ?_⟩
    have hmem := he.mem
    rw [hmax] at hmem
    rcases List.mem_append.mp hmem with hmem | hmem
    · exact hp.1 e hmem he.reads
    · exact hu.resumable_page h hstart hserved.start hmem he.reads

/-! ## 3. A completed call

From the pages to the cursor: the new cursor is the most advanced row of what was collected, and
the row at the old cursor is among it, or nothing is behind it. -/

section Completed

variable {cfg : Settings} {serverId : ℤ} {h : LogHeader} {s s' : Engine} {log : StoredLog}
  {f : Flight} {got : List Entry} {lo : Option Value} {result : LogDataResult}
  {cursor : Option Value}

/-- **The cursor that a completed call leaves is not behind the one it began from.** -/
theorem Engine.Completes.onward (hi : s.Inv cfg serverId (reachingPages cfg.maxReturnNodes) h log)
    (hc : Engine.Completes cfg serverId (reachingPages cfg.maxReturnNodes) h log s s' f got lo result
      cursor) :
    NotBehind log.direction (pollState serverId h s.warm).lastIndex
      (cursor.or (pollState serverId h s.warm).lastIndex) := by
  have ho : log.Orderable := hi.disciplined
  cases hnew : cursor with
  | none => exact NotBehind.refl _ _
  | some w =>
    cases hlast : (pollState serverId h s.warm).lastIndex with
    | none => trivial
    | some v =>
      have hmax : f.task.call.maxReturnNodes = some cfg.maxReturnNodes := by rw [hc.call]; rfl
      have hpages : ∀ e ∈ got ++ (log.page lo none f.task.call.maxReturnNodes).1,
          e.1.Orders log.indexType := by
        intro e he
        rcases List.mem_append.mp he with he | he
        · exact hc.underway.orders e he
        · exact ho.orders (StoredLog.mem_entries_of_mem_page he)
      have hcontinuation := hc.continuation
      rw [hnew] at hcontinuation
      obtain ⟨e, he, rfl⟩ := hc.stops.returned.last hpages hcontinuation
      have hreaches : Reaches log v (got ++ (log.page lo none f.task.call.maxReturnNodes).1) := by
        rw [hmax]
        exact hc.underway.reaches_page ho hlast (hi.cursor v hlast) (hc.pages.2 v hlast)
          hc.served.start
      cases hd : log.direction with
      | increasing =>
        obtain ⟨c, hmem, hcv, hreads⟩ := hreaches.row hd
        have hle := he.le c hmem hreads
        rw [StoredLog.entryKey, StoredLog.entryKey, hcv, hd] at hle
        exact hle
      | decreasing =>
        have hle := hreaches.beyond hd e he.mem
        rw [StoredLog.entryKey, hd] at hle
        exact hle

end Completed

end WitsmlViewer
