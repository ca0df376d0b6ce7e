/-
# The warm store as an append log (`app.ingestion.store`)

What the warm store is for: every sample ever appended, of which a reader sees the newest of each
curve.  `AppendLog` is that log, without a bound.  A buffer of the store holds the last samples of
a curve in it (`Refines`), whatever wells, curves and batches the calls mix; so each read is
described by the log alone (`warm_store_refines`).

An empty list of mnemonics is as false as `None`, so it asks for every curve.

The reads compose with the bound of the buffers: the last few of the last so many are the last few,
up to the smaller number.  This is why no reader can tell a bounded buffer from the log as long as
it asks for no more than the capacity, and why `FormulaApi` and `Comparison` speak of the log.
-/
import WitsmlViewer.Py.Timestamp
import WitsmlViewer.RingBuffer

namespace WitsmlViewer

open Py

/-! ## 1. The append log

The abstract store.  A curve is there as soon as it has a sample, and nothing is ever forgotten. -/

/-- Every sample that was appended, under its well, oldest first. -/
abbrev AppendLog := List (Str × CurveSample)

namespace AppendLog

/-- The samples of a curve. -/
def samples (log : AppendLog) (wellUid mnem : Str) : List CurveSample :=
  (log.filter fun e => e.1 = wellUid ∧ e.2.mnemonic = mnem).map Prod.snd

/-- The curves of a well. -/
def curves (log : AppendLog) (wellUid : Str) : Finset Str :=
  ((log.filter fun e => e.1 = wellUid).map fun e => e.2.mnemonic).toFinset

/-- A well has the curves that it has samples of. -/
theorem mem_curves {log : AppendLog} {wellUid mnem : Str} :
    mnem ∈ log.curves wellUid ↔ log.samples wellUid mnem ≠ [] := by
  simp only [curves, samples, List.mem_toFinset, List.mem_map, List.mem_filter, ne_eq,
    List.map_eq_nil_iff, List.filter_eq_nil_iff, decide_eq_true_eq, not_forall, not_not]
  constructor
  · rintro ⟨e, ⟨he, hw⟩, hm⟩
    exact ⟨e, he, hw, hm⟩
  · rintro ⟨e, he, hw, hm⟩
    exact ⟨e, ⟨he, hw⟩, hm⟩

/-- A batch adds its samples of each curve, in their order. -/
theorem samples_append (log : AppendLog) (well wellUid mnem : Str) (batch : List CurveSample) :
    AppendLog.samples (log ++ batch.map fun s => (well, s)) wellUid mnem =
      log.samples wellUid mnem ++
        batch.filter fun s => decide ((well, s.mnemonic) = (wellUid, mnem)) := by
  rw [samples, List.filter_append, List.map_append, List.filter_map, List.map_map]
  have hsnd : (Prod.snd ∘ fun s : CurveSample => (well, s)) = id := rfl
  rw [hsnd, List.map_id]
  refine congrArg _ (List.filter_congr fun s _ => ?_)
  simp [Prod.ext_iff]

end AppendLog

/-! ## 2. The store and what it reports

The store with everything that its callers can ask it for.  The time of the last append is kept for
each well; it is all that a status has besides counts and names. -/

/-- The store with the time of each well's last append. -/
structure WarmStore extends RingBufferStore where
  lastUpdate : Dict Str Datetime

/-- What `well_status` says of a well. -/
structure WellStatus where
  wellUid : Str
  name : Option Str
  region : Option Str
  growing : Bool
  lastUpdate : Option Datetime
  sampleCount : ℕ
  mnemonics : List Str

namespace WarmStore

variable (store : WarmStore)

def init (maxSamples : ℕ) : WarmStore := ⟨RingBufferStore.init maxSamples, []⟩

/-- `append`; `now` is `_utcnow()`. -/
def appendAt (now : Datetime) (wellUid : Str) (samples : List CurveSample) : WarmStore :=
  if samples = [] then store
  else ⟨store.append wellUid samples, store.lastUpdate.set wellUid now⟩

/-- `get_recent` as its callers use it; `mnemonics` may be `None`. -/
def recent (wellUid : Str) (mnemonics : Option (List Str)) (limit : Option ℕ) :
    Dict Str (List CurveSample) :=
  store.getRecent wellUid (mnemonics.getD []) none limit

/-- `curve_mnemonics`. -/
def curveMnemonics (wellUid : Str) : List Str :=
  (((store.curves.map Prod.fst).filter (·.1 = wellUid)).map Prod.snd).toFinset.sort

/-- `well_uids`. -/
def wellUids : List Str :=
  ((store.wellMeta.map Prod.fst).toFinset ∪ (store.curves.map (·.1.1)).toFinset).sort

/-- `well_status`. -/
def wellStatus : List WellStatus :=
  store.wellUids.map fun uid =>
    let info := (store.wellMeta.get? uid).getD (none, none)
    let mnems := store.curveMnemonics uid
    { wellUid := uid
      name := info.1
      region := info.2
      growing := store.logStates.any fun e => e.2.objectGrowing = some true && e.2.wellUid = uid
      lastUpdate := store.lastUpdate.get? uid
      sampleCount := (mnems.map fun m => (store.buffer (uid, m)).length).sum
      mnemonics := mnems }

/-- What is called on a store. -/
inductive Call
  | append (now : Datetime) (wellUid : Str) (samples : List CurveSample)
  | setWellMeta (wellUid : Str) (name region : Option Str)
  | putLogState (state : LogState)

def next : Call → WarmStore
  | .append now wellUid samples => store.appendAt now wellUid samples
  | .setWellMeta wellUid name region =>
    { store with toRingBufferStore := store.setWellMeta wellUid name region }
  | .putLogState state => { store with toRingBufferStore := store.putLogState state }

def run (maxSamples : ℕ) (calls : List Call) : WarmStore := calls.foldl next (init maxSamples)

end WarmStore

/-- The log after a call. -/
def AppendLog.next (log : AppendLog) : WarmStore.Call → AppendLog
  | .append _ wellUid samples => log ++ samples.map fun s => (wellUid, s)
  | _ => log

def AppendLog.run (calls : List WarmStore.Call) : AppendLog := calls.foldl AppendLog.next []

/-! ## 3. Refinement

A batch is appended sample by sample, each to the buffer of its curve, which drops its oldest
sample when it is full.  The log just grows; that the buffers go on holding its ends is one step. -/

/-- **The store refines the log**: its buffers hold the last samples of the log's curves, and there
is one buffer for each. -/
structure Refines (maxSamples : ℕ) (store : WarmStore) (log : AppendLog) : Prop where
  capacity : store.maxSamples = maxSamples
  buffer : ∀ wellUid mnem, store.buffer (wellUid, mnem) = lastN maxSamples (log.samples wellUid mnem)
  keys : ∀ wellUid mnem, (wellUid, mnem) ∈ store.curves.map Prod.fst ↔
    log.samples wellUid mnem ≠ []

section Refinement

variable {maxSamples : ℕ} {store : WarmStore} {log : AppendLog}

/-- The buffers that there are after an append: those that there were, and those of the batch. -/
theorem RingBufferStore.mem_keys_append (store : RingBufferStore) (wellUid : Str)
    (samples : List CurveSample) (key : Str × Str) :
    key ∈ (store.append wellUid samples).curves.map Prod.fst ↔
      key ∈ store.curves.map Prod.fst ∨ ∃ s ∈ samples, (wellUid, s.mnemonic) = key := by
  induction samples generalizing store with
  | nil => simp [RingBufferStore.append]
  | cons s samples ih =>
    have hrest : store.append wellUid (s :: samples) =
        (store.append wellUid [s]).append wellUid samples := rfl
    have hone : key ∈ (store.append wellUid [s]).curves.map Prod.fst ↔
        key ∈ store.curves.map Prod.fst ∨ (wellUid, s.mnemonic) = key := by
      rw [RingBufferStore.append, List.foldl_cons, List.foldl_nil, Dict.keys_set]
      split
      · rename_i hany
        obtain ⟨e, he, hkey⟩ := List.any_eq_true.mp hany
        rw [List.append_nil]
        refine ⟨Or.inl, fun h => h.elim id ?_⟩
        rintro rfl
        exact List.mem_map.mpr ⟨e, he, eq_of_beq hkey⟩
      · rw [List.mem_append, List.mem_singleton, eq_comm (a := key)]
    rw [hrest, ih, hone, List.exists_mem_cons_iff, or_assoc]

theorem Refines.init (maxSamples : ℕ) : Refines maxSamples (WarmStore.init maxSamples) [] :=
  ⟨rfl, fun _ _ => by simp [WarmStore.init, RingBufferStore.init, RingBufferStore.buffer, Dict.get?,
      AppendLog.samples, lastN],
    fun _ _ => by simp [WarmStore.init, RingBufferStore.init, AppendLog.samples]⟩

/-- **Each call keeps the refinement.** -/
theorem Refines.next (h : Refines maxSamples store log) (c : WarmStore.Call) :
    Refines maxSamples (store.next c) (log.next c) := by
  cases c with
  | setWellMeta wellUid name region => exact ⟨h.capacity, h.buffer, h.keys⟩
  | putLogState state => exact ⟨h.capacity, h.buffer, h.keys⟩
  | append now well batch =>
    by_cases hnil : batch = []
    · subst hnil
      rw [AppendLog.next, List.map_nil, List.append_nil]
      exact h
    · have hstore : (store.next (.append now well batch)).toRingBufferStore =
          store.append well batch := by
        rw [WarmStore.next, WarmStore.appendAt, if_neg hnil]
      refine ⟨by rw [hstore]; exact h.capacity, fun wellUid mnem => ?_, fun wellUid mnem => ?_⟩
      · have hlen : (store.buffer (wellUid, mnem)).length ≤ store.maxSamples := by
          rw [h.buffer, h.capacity]
          exact lastN_length_le _ _
        rw [hstore, RingBufferStore.buffer_append _ _ _ _ hlen, h.buffer, h.capacity,
          lastN_append, AppendLog.next, AppendLog.samples_append]
      · rw [hstore, RingBufferStore.mem_keys_append, h.keys, AppendLog.next,
          AppendLog.samples_append]
        simp only [ne_eq, List.append_eq_nil_iff, not_and_or]
        refine or_congr Iff.rfl ?_
        simp [List.filter_eq_nil_iff]

theorem refines_run (maxSamples : ℕ) (calls : List WarmStore.Call) :
    Refines maxSamples (WarmStore.run maxSamples calls) (AppendLog.run calls) := by
  induction calls using List.reverseRecOn with
  | nil => exact .init maxSamples
  | append_singleton calls c ih =>
    rw [WarmStore.run, AppendLog.run, List.foldl_append, List.foldl_append]
    exact ih.next c

/-! ## 4. The reads

The reads, one by one, in terms of the log. -/

/-- The last of the last. -/
theorem lastN_lastN {α : Type} (n m : ℕ) (l : List α) : lastN n (lastN m l) = lastN (min n m) l := by
  unfold lastN
  rw [List.drop_drop, List.length_drop]
  congr 1
  omega

/-- The curves that a request is for. -/
def Requested (mnemonics : Option (List Str)) (mnem : Str) : Prop :=
  mnemonics.getD [] = [] ∨ mnem ∈ mnemonics.getD []

instance (mnemonics : Option (List Str)) (mnem : Str) : Decidable (Requested mnemonics mnem) :=
  inferInstanceAs (Decidable (_ ∨ _))

theorem Refines.mem_curves (h : Refines maxSamples store log) {wellUid mnem : Str} :
    mnem ∈ ((store.curves.map Prod.fst).filter (·.1 = wellUid)).map Prod.snd ↔
      mnem ∈ log.curves wellUid := by
  rw [AppendLog.mem_curves, ← h.keys]
  constructor
  · intro hm
    obtain ⟨⟨w, m⟩, hkey, rfl⟩ := List.mem_map.mp hm
    obtain ⟨hmem, hw⟩ := List.mem_filter.mp hkey
    obtain rfl : w = wellUid := by simpa using hw
    exact hmem
  · intro hkey
    exact List.mem_map.mpr ⟨_, List.mem_filter.mpr ⟨hkey, by simp⟩, rfl⟩

/-- The end of a list is empty only if the list is. -/
theorem lastN_eq_nil {α : Type} {n : ℕ} (hn : 1 ≤ n) {l : List α} : lastN n l = [] ↔ l = [] := by
  rw [lastN, List.drop_eq_nil_iff]
  constructor
  · intro h
    exact List.length_eq_zero_iff.mp (by omega)
  · rintro rfl
    simp

theorem recentItems_eq {limit : Option ℕ} (hlimit : limit ≠ some 0) (n : ℕ)
    (l : List CurveSample) : RingBufferStore.recentItems none limit (lastN n l) =
      lastN (min (limit.getD n) n) l := by
  cases limit with
  | none => rw [Option.getD_none, min_self]; rfl
  | some m =>
    have hm : m ≠ 0 := fun h => hlimit (by rw [h])
    have hlast : RingBufferStore.recentItems none (some m) (lastN n l) = lastN m (lastN n l) := by
      change RingBufferStore.lastItems m (lastN n l) = _
      rw [RingBufferStore.lastItems, if_neg hm]
      rfl
    rw [hlast, lastN_lastN, Option.getD_some]

/-- **What a reader gets**: of each curve asked for that has data, the last samples. -/
theorem Refines.get?_recent (h : Refines maxSamples store log) (hpos : 1 ≤ maxSamples)
    (wellUid mnem : Str) (mnemonics : Option (List Str)) {limit : Option ℕ}
    (hlimit : limit ≠ some 0) : Dict.get? (store.recent wellUid mnemonics limit) mnem =
      if Requested mnemonics mnem ∧ mnem ∈ log.curves wellUid then
        some (lastN (min (limit.getD maxSamples) maxSamples) (log.samples wellUid mnem))
      else none := by
  have hbuf : store.buffer (wellUid, mnem) = [] ↔ mnem ∉ log.curves wellUid := by
    rw [h.buffer, lastN_eq_nil hpos, AppendLog.mem_curves, not_not]
  have hitems : RingBufferStore.recentItems none limit (store.buffer (wellUid, mnem)) =
      lastN (min (limit.getD maxSamples) maxSamples) (log.samples wellUid mnem) := by
    rw [h.buffer, recentItems_eq hlimit]
  rw [WarmStore.recent]
  by_cases hreq : Requested mnemonics mnem
  · rw [store.get?_getRecent_asked hreq, hitems]
    simp only [hreq, hbuf, true_and, ite_not]
  · obtain ⟨hne, hmem⟩ := not_or.mp hreq
    rw [store.get?_getRecent wellUid mnem hne, if_neg fun hand => hmem hand.1,
      if_neg fun hand => hreq hand.1]

theorem Refines.curveMnemonics_eq (h : Refines maxSamples store log) (wellUid : Str) :
    store.curveMnemonics wellUid = (log.curves wellUid).sort := by
  rw [WarmStore.curveMnemonics]
  congr 1
  ext mnem
  rw [List.mem_toFinset, h.mem_curves]

/-- The samples that a well's status counts. -/
theorem Refines.sampleCount_eq (h : Refines maxSamples store log) {status : WellStatus}
    (hstatus : status ∈ store.wellStatus) : status.sampleCount =
      ∑ mnem ∈ log.curves status.wellUid,
        min maxSamples (log.samples status.wellUid mnem).length := by
  obtain ⟨uid, -, rfl⟩ := List.mem_map.mp hstatus
  dsimp only
  have hlength : ∀ mnem, (store.buffer (uid, mnem)).length =
      min maxSamples (log.samples uid mnem).length := by
    intro mnem
    rw [h.buffer, lastN, List.length_drop]
    omega
  simp only [hlength]
  rw [h.curveMnemonics_eq, ← List.sum_toFinset _ (Finset.sort_nodup _ _), Finset.sort_toFinset]

/-- Every well with a curve has a status. -/
theorem Refines.exists_status (h : Refines maxSamples store log) {wellUid : Str}
    (hcurves : (log.curves wellUid).Nonempty) :
    ∃ status ∈ store.wellStatus, status.wellUid = wellUid := by
  obtain ⟨mnem, hmnem⟩ := hcurves
  have hkey := (h.keys wellUid mnem).mpr (AppendLog.mem_curves.mp hmnem)
  have huid : wellUid ∈ store.wellUids := by
    obtain ⟨e, he, hfst⟩ := List.mem_map.mp hkey
    rw [WarmStore.wellUids, Finset.mem_sort, Finset.mem_union, List.mem_toFinset, List.mem_toFinset]
    exact Or.inr (List.mem_map.mpr ⟨e, he, by rw [hfst]⟩)
  exact ⟨_, List.mem_map_of_mem huid, rfl⟩

/-- **The warm store refines an append log.**  After any calls, every read is one of the log.

The calls may mix wells, curves and batches in any way, and there is any number of them; the
capacity is any positive number.  `limit` may be larger than what is there, or absent.  The one
exception is `0`, which Python's slice takes for everything. -/
theorem warm_store_refines {maxSamples : ℕ} (hpos : 1 ≤ maxSamples) (calls : List WarmStore.Call) :
    (∀ wellUid mnemonics limit mnem, limit ≠ some 0 →
      Dict.get? ((WarmStore.run maxSamples calls).recent wellUid mnemonics limit) mnem =
        if Requested mnemonics mnem ∧ mnem ∈ (AppendLog.run calls).curves wellUid then
          some (lastN (min (limit.getD maxSamples) maxSamples)
            ((AppendLog.run calls).samples wellUid mnem))
        else none) ∧
      (∀ wellUid, (WarmStore.run maxSamples calls).curveMnemonics wellUid =
        ((AppendLog.run calls).curves wellUid).sort) ∧
      (∀ status ∈ (WarmStore.run maxSamples calls).wellStatus, status.sampleCount =
        ∑ mnem ∈ (AppendLog.run calls).curves status.wellUid,
          min maxSamples ((AppendLog.run calls).samples status.wellUid mnem).length) ∧
      ∀ wellUid, ((AppendLog.run calls).curves wellUid).Nonempty →
        ∃ status ∈ (WarmStore.run maxSamples calls).wellStatus, status.wellUid = wellUid := by
  have h := refines_run maxSamples calls
  exact ⟨fun wellUid mnemonics limit mnem hlimit => h.get?_recent hpos wellUid mnem mnemonics hlimit,
    h.curveMnemonics_eq, fun _ hstatus => h.sampleCount_eq hstatus,
    fun _ hcurves => h.exists_status hcurves⟩

end Refinement

def grSample (i : ℤ) : CurveSample :=
  ⟨"GR".toList, .num (.ofRatio i 1), some (.ofRatio i 1), none, some "gAPI".toList⟩

/-- One batch, larger than the capacity. -/
def oneBatch : List WarmStore.Call :=
  [.append ⟨0, maxMicros_pos, true⟩ "W-1".toList ((List.range 10).map fun i => grSample i)]

/-- **An empty list of mnemonics asks for every curve.** -/
theorem empty_list_asks_for_all : "GR".toList ∉ ([] : List Str) ∧
    Dict.get? ((WarmStore.run 3 oneBatch).recent "W-1".toList (some []) none) "GR".toList =
      some [grSample 7, grSample 8, grSample 9] := by
  refine ⟨List.not_mem_nil, ?_⟩
  decide +kernel

def ropSample (i : ℤ) : CurveSample :=
  ⟨"ROP".toList, .num (.ofRatio i 1), some (.ofRatio i 1), none, some "m/h".toList⟩

/-- Two wells in turn, batches that mix the curves of one of them, an empty batch, and a well that
has a name and no samples. -/
def mixedCalls : List WarmStore.Call :=
  let now : Datetime := ⟨0, maxMicros_pos, true⟩
  [.append now "W-1".toList [grSample 0, ropSample 0, grSample 1],
    .append now "W-2".toList [grSample 7],
    .append now "W-1".toList [grSample 2, ropSample 2, grSample 3],
    .setWellMeta "W-3".toList (some "Well 3".toList) none,
    .append now "W-3".toList [],
    .append now "W-1".toList [grSample 4]]

/-- The five samples of GR do not fit, the two of ROP do, and neither well has those of the other. -/
theorem warm_store_mixedCalls :
    Dict.get? ((WarmStore.run 3 mixedCalls).recent "W-1".toList
        (some ["GR".toList, "ROP".toList]) (some 2)) "GR".toList =
      some [grSample 3, grSample 4] ∧
    Dict.get? ((WarmStore.run 3 mixedCalls).recent "W-1".toList none none) "ROP".toList =
      some [ropSample 0, ropSample 2] ∧
    Dict.get? ((WarmStore.run 3 mixedCalls).recent "W-2".toList none none) "ROP".toList = none ∧
    (WarmStore.run 3 mixedCalls).curveMnemonics "W-1".toList = ["GR".toList, "ROP".toList] ∧
    (∀ status ∈ (WarmStore.run 3 mixedCalls).wellStatus, status.wellUid = "W-1".toList →
      status.sampleCount = 5) ∧
    ∃ status ∈ (WarmStore.run 3 mixedCalls).wellStatus, status.wellUid = "W-2".toList := by
  obtain ⟨hrecent, hcurves, hcount, hstatus⟩ :=
    warm_store_refines (show 1 ≤ 3 by decide) mixedCalls
  refine ⟨?_, ?_, ?_, ?_, ?_, ?_⟩
  · rw [hrecent _ _ _ _ (by decide)]
    decide +kernel
  · rw [hrecent _ _ _ _ (by decide)]
    decide +kernel
  · rw [hrecent _ _ _ _ (by decide)]
    decide +kernel
  · have hset : (AppendLog.run mixedCalls).curves "W-1".toList =
        ["GR".toList, "ROP".toList].toFinset := by decide +kernel
    have hnames : ["GR".toList, "ROP".toList].Nodup := by decide +kernel
    rw [hcurves, hset]
    exact (List.toFinset_sort (· ≤ ·) hnames).mpr (by decide +kernel)
  · intro status hmem hwell
    rw [hcount status hmem, hwell]
    decide +kernel
  · exact hstatus "W-2".toList (by decide +kernel)

end WitsmlViewer
