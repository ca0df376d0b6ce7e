/-
# The warm store (`app.ingestion.store`)

Bounded sample buffers per (well, mnemonic), the per-log ingestion state, and the well table.  The
two lemmas that matter above are about buffers: a buffer holds the last `maxSamples` of what was
appended to it (`buffer_append`), and `getRecent` reads it (`get?_getRecent`).

A buffer's key has no log in it.  All logs of a well that have a curve of one mnemonic feed one
buffer, in the order in which their calls complete; what this does to a viewer is the subject of
`SharedCurves`.  The states of the logs are in the same store but under their own keys, and no
operation on buffers touches them, which the first lemmas of section 3 say once and for all.

Lookups never create a buffer: the source uses a `defaultdict`, but reads it with `get`.
-/
import WitsmlViewer.Domain

namespace WitsmlViewer

open Py

/-! ## 1. Log state

What a poll needs to know of a log, and what survives a restart of it. -/

/-- `(server_id, well_uid, wellbore_uid, log_uid)`. -/
structure LogKey where
  serverId : ℤ
  wellUid : Str
  wellboreUid : Str
  logUid : Str
deriving DecidableEq

/-- Resumable per-log ingestion state. -/
structure LogState where
  serverId : ℤ
  wellUid : Str
  wellboreUid : Str
  logUid : Str
  indexType : IndexType
  direction : Direction
  indexUom : Option Str
  indexMnemonic : Str
  mnemonics : List Str
  lastIndex : Option Value
  objectGrowing : Option Bool
deriving DecidableEq

def LogState.key (s : LogState) : LogKey := ⟨s.serverId, s.wellUid, s.wellboreUid, s.logUid⟩

/-! ## 2. The store

The dictionaries of the source, in the order of insertion.  The times of the last appends, which
the status page shows, are added in `WarmStore`, and the subscribers in `Fanout`. -/

structure RingBufferStore where
  maxSamples : ℕ
  curves : Dict (Str × Str) (List CurveSample)
  logStates : Dict LogKey LogState
  wellMeta : Dict Str (Option Str × Option Str)

namespace RingBufferStore

variable (store : RingBufferStore)

def init (maxSamples : ℕ) : RingBufferStore := ⟨maxSamples, [], [], []⟩

/-- A buffer, empty if there is none. -/
def buffer (key : Str × Str) : List CurveSample := (store.curves.get? key).getD []

/-- `deque.append` with a maximal length: the oldest sample falls out. -/
def pushBounded (maxSamples : ℕ) (buf : List CurveSample) (s : CurveSample) : List CurveSample :=
  (buf ++ [s]).drop (buf.length + 1 - maxSamples)

/-- `append`: each sample goes to the buffer of its own mnemonic. -/
def append (wellUid : Str) (samples : List CurveSample) : RingBufferStore :=
  { store with
    curves := samples.foldl (fun curves s => curves.set (wellUid, s.mnemonic)
      (pushBounded store.maxSamples ((curves.get? (wellUid, s.mnemonic)).getD []) s))
      store.curves }

/-- `_gt`: a comparison that cannot be made is false. -/
def gt (a b : Value) : Bool :=
  match b.lt? a with
  | .ok r => r
  | .error _ => false

/-- `items[-limit:]`; a limit of 0 takes everything, since `items[-0:]` is the whole list. -/
def lastItems (limit : ℕ) (items : List CurveSample) : List CurveSample :=
  if limit = 0 then items else items.drop (items.length - limit)

/-- What `get_recent` takes from one buffer. -/
def recentItems (since : Option Value) (limit : Option ℕ) (buf : List CurveSample) :
    List CurveSample :=
  let items := match since with
    | none => buf
    | some since => buf.filter (gt ·.index since)
  match limit with
  | none => items
  | some limit => lastItems limit items

/-- `get_recent`: the buffers of a well, for the mnemonics asked for (all for none).  A curve
without samples has no entry, and one that is named twice has one. -/
def getRecent (wellUid : Str) (mnemonics : List Str) (since : Option Value) (limit : Option ℕ) :
    Dict Str (List CurveSample) :=
  let keys := if mnemonics = [] then (store.curves.map Prod.fst).filter (·.1 = wellUid)
    else mnemonics.map (wellUid, ·)
  keys.foldl (fun out key =>
    let buf := store.buffer key
    if buf = [] then out else out.set key.2 (recentItems since limit buf)) []

def setWellMeta (wellUid : Str) (name region : Option Str) : RingBufferStore :=
  { store with wellMeta := store.wellMeta.set wellUid (name, region) }

def getLogState (key : LogKey) : Option LogState := store.logStates.get? key

def putLogState (s : LogState) : RingBufferStore :=
  { store with logStates := store.logStates.set s.key s }

/-! ## 3. What the operations do

Buffers and states do not meet.  The simp lemmas below say so in both directions, and every proof
about a call that writes both relies on them. -/

@[simp] theorem append_logStates (wellUid : Str) (samples : List CurveSample) :
    (store.append wellUid samples).logStates = store.logStates := rfl

@[simp] theorem append_maxSamples (wellUid : Str) (samples : List CurveSample) :
    (store.append wellUid samples).maxSamples = store.maxSamples := rfl

@[simp] theorem putLogState_curves (s : LogState) : (store.putLogState s).curves = store.curves :=
  rfl

@[simp] theorem putLogState_maxSamples (s : LogState) :
    (store.putLogState s).maxSamples = store.maxSamples := rfl

@[simp] theorem buffer_putLogState (s : LogState) (key : Str × Str) :
    (store.putLogState s).buffer key = store.buffer key := rfl

theorem getLogState_append (wellUid : Str) (samples : List CurveSample) (key : LogKey) :
    (store.append wellUid samples).getLogState key = store.getLogState key := rfl

/-- A state is found under its own key; the others stay. -/
theorem getLogState_putLogState (s : LogState) (key : LogKey) :
    (store.putLogState s).getLogState key = if s.key = key then some s else store.getLogState key :=
  Dict.get?_set s.key key s store.logStates

end RingBufferStore

/-- The last `n` elements of a list. -/
def lastN {α : Type} (n : ℕ) (l : List α) : List α := l.drop (l.length - n)

theorem lastN_length_le {α : Type} (n : ℕ) (l : List α) : (lastN n l).length ≤ n := by
  rw [lastN, List.length_drop]; omega

/-- Bounding along the way is bounding at the end.  This is why a deque with a maximal length,
which forgets as it goes, can be described by what was appended to it in total. -/
theorem lastN_append {α : Type} (n : ℕ) (l m : List α) :
    lastN n (lastN n l ++ m) = lastN n (l ++ m) := by
  unfold lastN
  have hsplit : l.drop (l.length - n) ++ m = (l ++ m).drop (l.length - n) := by
    rw [List.drop_append_of_le_length (by omega)]
  rw [hsplit, List.drop_drop]
  congr 1
  simp only [List.length_drop, List.length_append]
  omega

theorem lastN_suffix {α : Type} (n : ℕ) (l : List α) : lastN n l <:+ l := List.drop_suffix _ _

namespace RingBufferStore

theorem pushBounded_eq (n : ℕ) (buf : List CurveSample) (s : CurveSample) :
    pushBounded n buf s = lastN n (buf ++ [s]) := by
  simp [pushBounded, lastN]

/-- **After an append, a buffer holds the last samples of its old content and its share of the new
ones.**  The samples of a batch may be of several curves, mixed; each buffer gets those of its own
mnemonic, in the batch's order.  The induction is on the batch, and at each step one buffer grows
and the others are found unchanged. -/
theorem buffer_append (wellUid : Str) (samples : List CurveSample) (key : Str × Str) :
    ∀ store : RingBufferStore, (store.buffer key).length ≤ store.maxSamples →
      (store.append wellUid samples).buffer key = lastN store.maxSamples
        (store.buffer key ++ samples.filter fun s => decide ((wellUid, s.mnemonic) = key)) := by
  induction samples with
  | nil =>
    intro store hlen
    have hz : (store.buffer key).length - store.maxSamples = 0 := by omega
    rw [List.filter_nil, List.append_nil, lastN, hz, List.drop_zero]
    rfl
  | cons s samples ih =>
    intro store hlen
    let next := store.append wellUid [s]
    have hrest : store.append wellUid (s :: samples) = next.append wellUid samples := rfl
    have hone : next.buffer key = lastN store.maxSamples
        (store.buffer key ++ [s].filter fun s => decide ((wellUid, s.mnemonic) = key)) := by
      have hget : next.buffer key = (Dict.get? (store.curves.set (wellUid, s.mnemonic)
          (pushBounded store.maxSamples (store.buffer (wellUid, s.mnemonic)) s)) key).getD [] := rfl
      rw [hget, Dict.get?_set]
      by_cases hk : (wellUid, s.mnemonic) = key
      · subst hk
        simp [pushBounded_eq]
      · rw [if_neg hk]
        have hz : (store.buffer key).length - store.maxSamples = 0 := by omega
        have hfilter : [s].filter (fun s => decide ((wellUid, s.mnemonic) = key)) = [] := by
          simp [hk]
        rw [hfilter, List.append_nil, lastN, hz, List.drop_zero]
        rfl
    have hbound : (next.buffer key).length ≤ next.maxSamples := by
      rw [hone]
      exact lastN_length_le _ _
    rw [hrest, ih next hbound, hone]
    change lastN store.maxSamples _ = _
    rw [lastN_append, List.append_assoc]
    rw [← List.filter_append, List.singleton_append]

/-- What `get_recent` returns for a curve of a request that names mnemonics. -/
theorem get?_getRecent (store : RingBufferStore) (wellUid mnem : Str) {mnemonics : List Str}
    (hne : mnemonics ≠ []) (since : Option Value) (limit : Option ℕ) :
    Dict.get? (store.getRecent wellUid mnemonics since limit) mnem =
      if mnem ∈ mnemonics ∧ store.buffer (wellUid, mnem) ≠ [] then
        some (recentItems since limit (store.buffer (wellUid, mnem)))
      else none := by
  rw [getRecent, if_neg hne]
  clear hne
  dsimp only
  rw [List.foldl_map]
  induction mnemonics using List.reverseRecOn with
  | nil => simp [Dict.get?]
  | append_singleton mnemonics m ih =>
    rw [List.foldl_append, List.foldl_cons, List.foldl_nil]
    by_cases hbuf : store.buffer (wellUid, m) = []
    · rw [if_pos hbuf, ih]
      by_cases hm : m = mnem
      · subst hm
        simp [hbuf]
      · simp [List.mem_append, Ne.symm hm]
    · rw [if_neg hbuf, Dict.get?_set]
      by_cases hm : m = mnem
      · subst hm
        simp [hbuf]
      · simp only [hm, if_false]
        rw [ih]
        simp [List.mem_append, Ne.symm hm]

/-- Without mnemonics `get_recent` asks for those that there are buffers of. -/
theorem getRecent_nil (store : RingBufferStore) (wellUid : Str) (since : Option Value)
    (limit : Option ℕ) : store.getRecent wellUid [] since limit =
      let mnems := ((store.curves.map Prod.fst).filter (·.1 = wellUid)).map Prod.snd
      if mnems = [] then [] else store.getRecent wellUid mnems since limit := by
  have hkeys : (store.curves.map Prod.fst).filter (·.1 = wellUid) =
      (((store.curves.map Prod.fst).filter (·.1 = wellUid)).map Prod.snd).map (wellUid, ·) := by
    rw [List.map_map]
    refine (List.map_id _).symm.trans (List.map_congr_left fun key hkey => ?_)
    have hwell : key.1 = wellUid := by simpa using (List.mem_filter.mp hkey).2
    rw [← hwell]
    rfl
  dsimp only
  split
  · rename_i hnil
    rw [getRecent, if_pos rfl, List.map_eq_nil_iff.mp hnil]
    rfl
  · rename_i hne
    rw [getRecent, getRecent, if_pos rfl, if_neg hne, ← hkeys]

/-- Only a key of the table has samples.  So a request for all curves misses none. -/
theorem mem_mnemonics_of_buffer {store : RingBufferStore} {wellUid mnem : Str}
    (hne : store.buffer (wellUid, mnem) ≠ []) :
    mnem ∈ ((store.curves.map Prod.fst).filter (·.1 = wellUid)).map Prod.snd := by
  cases hget : store.curves.get? (wellUid, mnem) with
  | none => exact absurd (by rw [buffer, hget]; rfl) hne
  | some buf =>
    have hkey := List.mem_map_of_mem (f := Prod.fst) (Dict.get?_mem (fun _ _ => eq_of_beq) hget)
    exact List.mem_map_of_mem (f := Prod.snd) (List.mem_filter.mpr ⟨hkey, by simp⟩)

/-- **What `get_recent` returns for a curve that is asked for**, by its name or, when no curve is
named, along with all the others.  What else is asked for does not matter. -/
theorem get?_getRecent_asked (store : RingBufferStore) {wellUid mnem : Str} {mnemonics : List Str}
    (hasked : mnemonics = [] ∨ mnem ∈ mnemonics) (since : Option Value) (limit : Option ℕ) :
    Dict.get? (store.getRecent wellUid mnemonics since limit) mnem =
      if store.buffer (wellUid, mnem) = [] then none
      else some (recentItems since limit (store.buffer (wellUid, mnem))) := by
  -- an empty list stands for the keys of the table, and a curve that has samples is among them
  have hnamed : ∀ mnems : List Str, mnems ≠ [] →
      (store.buffer (wellUid, mnem) ≠ [] → mnem ∈ mnems) →
      Dict.get? (store.getRecent wellUid mnems since limit) mnem =
        if store.buffer (wellUid, mnem) = [] then none
        else some (recentItems since limit (store.buffer (wellUid, mnem))) := by
    intro mnems hne hmem
    rw [get?_getRecent store wellUid mnem hne]
    by_cases hbuf : store.buffer (wellUid, mnem) = []
    · simp [hbuf]
    · simp [hbuf, hmem hbuf]
  rcases hasked with rfl | hmem
  · rw [getRecent_nil]
    dsimp only
    split
    · rename_i hnil
      have hbuf : store.buffer (wellUid, mnem) = [] := by
        by_contra hne
        exact List.not_mem_nil (hnil ▸ mem_mnemonics_of_buffer hne)
      rw [if_pos hbuf]
      rfl
    · rename_i hne
      exact hnamed _ hne mem_mnemonics_of_buffer
  · exact hnamed _ (List.ne_nil_of_mem hmem) fun _ => hmem

/-- `get_recent` has one entry for each curve, even if a request names it twice. -/
theorem distinct_getRecent (store : RingBufferStore) (wellUid : Str) (mnemonics : List Str)
    (since : Option Value) (limit : Option ℕ) :
    Dict.Distinct (store.getRecent wellUid mnemonics since limit) := by
  rw [getRecent]
  dsimp only
  generalize (if mnemonics = [] then (store.curves.map Prod.fst).filter (·.1 = wellUid)
    else mnemonics.map (wellUid, ·)) = keys
  induction keys using List.reverseRecOn with
  | nil => exact Dict.distinct_nil
  | append_singleton keys key ih =>
    rw [List.foldl_append, List.foldl_cons, List.foldl_nil]
    split
    · exact ih
    · exact Dict.distinct_set ih

end RingBufferStore

end WitsmlViewer
