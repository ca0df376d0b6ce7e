/-
# The remark search (`app.api.reports`)

A keyword is looked for in the text and the category of the remarks, as the pattern `%keyword%` of
a `LIKE`; filters on the report's header narrow the search.  The pattern language reads `%` and `_`
in the keyword as wildcards.

`remark_search_iff`: a search finds the remarks with the keyword exactly if no other remark has an
instance of it, and a keyword is safe on all data exactly if it has neither wildcard.

The module's docstring speaks of a case-insensitive substring match, and a pattern is nearly that.
It never finds too little, as every keyword is an instance of itself.  It finds too much where a
wildcard of the keyword stands for something else in a remark; `like` takes an escape character,
and none is given.

Matching is in `Wildcards`, for any alphabet: what a pattern reads, and that a pattern without
wildcards reads its own text only.  The texts are ASCII here.  Beyond ASCII the lowering of the
database and that of Python are not the same function, and the source has one of them on either
side of the `LIKE`.
-/
import WitsmlViewer.Lib.Wildcards
import WitsmlViewer.Export

namespace WitsmlViewer
namespace Reports

open Py Wildcards

/-! ## 1. The tables

The columns that a search reads or returns.  Ids are keys; a remark without its report is not
found, as the query joins the two. -/

/-- The header of a report: the columns that a search reads. -/
structure Report where
  id : ℕ
  reportDate : Option ℕ
  field : Option Str
  rig : Option Str
  wellUid : Option Str
  operationType : Option Str
  mudSystem : Option Str
deriving DecidableEq

structure Remark where
  id : ℕ
  reportId : ℕ
  time : Option Datetime
  depth : Option Float64
  category : Option Str
  text : Option Str
deriving DecidableEq

/-- A saved search; its criteria are texts or null. -/
structure SavedSearch where
  id : ℕ
  criteria : Dict Str (Option Str)

/-- The tables of `app.api.reports` that a search reads. -/
structure Tables where
  reports : List Report
  remarks : List Remark
  searches : List SavedSearch

/-- `RemarkContext`: a remark and the header of its report. -/
structure RemarkContext where
  id : ℕ
  reportId : ℕ
  time : Option Datetime
  depth : Option Float64
  category : Option Str
  text : Option Str
  reportDate : Option ℕ
  field : Option Str
  rig : Option Str
  wellUid : Option Str
  operationType : Option Str
  mudSystem : Option Str
deriving DecidableEq

def remarkContext (row : Remark × Report) : RemarkContext where
  id := row.1.id
  reportId := row.1.reportId
  time := row.1.time
  depth := row.1.depth
  category := row.1.category
  text := row.1.text
  reportDate := row.2.reportDate
  field := row.2.field
  rig := row.2.rig
  wellUid := row.2.wellUid
  operationType := row.2.operationType
  mudSystem := row.2.mudSystem

/-! ## 2. Conditions

SQL has three truth values, and a `WHERE` clause lets a row pass only if the condition is true of
it.  So a filter on a column that is null selects nothing, which is what a reader expects of a
filter, and a keyword is found in the category of a remark whose text is null. -/

/-- The conditions of a `WHERE` clause on a remark and its report.  A condition has no truth value
where SQL has `NULL`. -/
abbrev Statement := List (Remark × Report → Option Bool)

/-- A row is selected if every condition is true of it. -/
def selects (stmt : Statement) (row : Remark × Report) : Bool :=
  stmt.all fun cond => decide (cond row = some true)

/-- `or_`. -/
def sqlOr : Option Bool → Option Bool → Option Bool
  | some true, _ => some true
  | _, some true => some true
  | some false, some false => some false
  | _, _ => none

/-- What a character of a pattern stands for. -/
def token (c : Char) : Token Char :=
  if c = '%' then .anyRun else if c = '_' then .anyLetter else .letter c

/-- `column.like(pattern)`. -/
def sqlLike (column : Option Str) (pattern : Str) : Option Bool :=
  column.map (accepts (pattern.map token))

/-- `if value: stmt = stmt.where(column == value)`. -/
def whereEq (value : Option Str) (column : Report → Option Str) (stmt : Statement) : Statement :=
  match value with
  | none | some [] => stmt
  | some v => stmt ++ [fun row => (column row.2).map fun x => decide (x = v)]

/-- `if day: stmt = stmt.where(Report.report_date … day)`. -/
def whereDate (day : Option ℕ) (compare : ℕ → ℕ → Bool) (stmt : Statement) : Statement :=
  match day with
  | none => stmt
  | some d => stmt ++ [fun row => row.2.reportDate.map fun x => compare x d]

/-- The keyword arguments of `_report_filters`. -/
structure ReportFilters where
  field : Option Str := none
  rig : Option Str := none
  wellUid : Option Str := none
  operationType : Option Str := none
  mudSystem : Option Str := none
  dateFrom : Option ℕ := none
  dateTo : Option ℕ := none

/-- `_report_filters`. -/
def reportFilters (stmt : Statement) (f : ReportFilters) : Statement :=
  let stmt := whereEq f.field Report.field stmt
  let stmt := whereEq f.rig Report.rig stmt
  let stmt := whereEq f.wellUid Report.wellUid stmt
  let stmt := whereEq f.operationType Report.operationType stmt
  let stmt := whereEq f.mudSystem Report.mudSystem stmt
  let stmt := whereDate f.dateFrom (fun x d => decide (d ≤ x)) stmt
  whereDate f.dateTo (fun x d => decide (x ≤ d)) stmt

/-- The `LIKE` on the lowered text and the lowered category. -/
def whereKeyword (keyword : Option Str) (stmt : Statement) : Statement :=
  match keyword with
  | none | some [] => stmt
  | some k =>
    let like := '%' :: (lower k ++ ['%'])
    stmt ++ [fun row =>
      sqlOr (sqlLike (row.1.text.map lower) like) (sqlLike (row.1.category.map lower) like)]

/-! ## 3. The search

The two endpoints differ in where the criteria come from, and share the query.  A saved search
keeps its dates as texts and parses them when it is run. -/

/-- `select(Remark, Report).join(Report, Remark.report_id == Report.id)`. -/
def joined (db : Tables) : List (Remark × Report) :=
  db.remarks.flatMap fun remark =>
    (db.reports.filter fun report => decide (remark.reportId = report.id)).map fun report =>
      (remark, report)

/-- `ORDER BY report_date, id`. -/
def orderKey (nullsFirst : Bool) (reportDate : Option ℕ) (id : ℕ) : (ℤ ×ₗ ℤ) ×ₗ ℤ :=
  toLex (sqlColumn nullsFirst (reportDate.map Int.ofNat), (id : ℤ))

/-- `_search_remarks`. -/
def searchRemarks (nullsFirst : Bool) (db : Tables) (keyword field wellUid : Option Str)
    (dateFrom dateTo : Option ℕ) : List RemarkContext :=
  let stmt := reportFilters []
    { field := field, wellUid := wellUid, dateFrom := dateFrom, dateTo := dateTo }
  let stmt := whereKeyword keyword stmt
  (((joined db).filter (selects stmt)).map remarkContext).insertionSort fun a b =>
    orderKey nullsFirst a.reportDate a.id ≤ orderKey nullsFirst b.reportDate b.id

/-- What `app.api.reports` answers instead of a search. -/
inductive SearchError
  | invalidDate (raw : Str)
  | notFound (searchId : ℕ)
deriving DecidableEq

def SearchError.statusCode : SearchError → ℕ
  | invalidDate _ => 400
  | notFound _ => 404

/-- `_parse_date`. -/
def parseDate (raw : Option Str) : Except SearchError (Option ℕ) :=
  match raw with
  | none | some [] => .ok none
  | some s => match isoDate? s with
    | none => .error (.invalidDate s)
    | some day => .ok (some day)

/-- The query of the endpoint, each parameter a text or absent. -/
structure Criteria where
  keyword : Option Str
  field : Option Str
  wellUid : Option Str
  dateFrom : Option Str
  dateTo : Option Str

/-- `search_remarks`: the endpoint of the ad-hoc search. -/
def adHocSearch (nullsFirst : Bool) (db : Tables) (q : Criteria) :
    Except SearchError (List RemarkContext) := do
  let dateFrom ← parseDate q.dateFrom
  let dateTo ← parseDate q.dateTo
  return searchRemarks nullsFirst db q.keyword q.field q.wellUid dateFrom dateTo

/-- `run_search`. -/
def runSearch (nullsFirst : Bool) (db : Tables) (searchId : ℕ) :
    Except SearchError (List RemarkContext) :=
  match db.searches.find? fun search => decide (search.id = searchId) with
  | none => .error (.notFound searchId)
  | some search => do
    let c := search.criteria
    let dateFrom ← parseDate (c.get? "date_from".toList).join
    let dateTo ← parseDate (c.get? "date_to".toList).join
    return searchRemarks nullsFirst db (c.get? "keyword".toList).join (c.get? "field".toList).join
      (c.get? "well_uid".toList).join dateFrom dateTo

/-! ## 4. What a search is for

The specification, in two readings of "has the keyword": the remark contains it, or the remark has
an instance of it as a pattern.  The first is what the search is for, and the second what it does.
-/

/-- Text of ASCII characters. -/
def Ascii (s : Str) : Prop := ∀ c ∈ s, c.toNat < 128

/-- The report has what a filter asks for; an empty text asks for nothing. -/
structure Passes (f : ReportFilters) (report : Report) : Prop where
  field : ∀ v, f.field = some v → v ≠ [] → report.field = some v
  rig : ∀ v, f.rig = some v → v ≠ [] → report.rig = some v
  wellUid : ∀ v, f.wellUid = some v → v ≠ [] → report.wellUid = some v
  operationType : ∀ v, f.operationType = some v → v ≠ [] → report.operationType = some v
  mudSystem : ∀ v, f.mudSystem = some v → v ≠ [] → report.mudSystem = some v
  dateFrom : ∀ d, f.dateFrom = some d → ∃ x, report.reportDate = some x ∧ d ≤ x
  dateTo : ∀ d, f.dateTo = some d → ∃ x, report.reportDate = some x ∧ x ≤ d

/-- The text or the category of a remark. -/
def Says (remark : Remark) (s : Str) : Prop := remark.text = some s ∨ remark.category = some s

/-- The remark has the keyword in its text or its category, in whatever case. -/
def Contains (keyword : Str) (remark : Remark) : Prop :=
  ∃ s, Says remark s ∧ lower keyword <:+: lower s

/-- The remark has an instance of the keyword, read as a pattern. -/
def HasInstance (keyword : Str) (remark : Remark) : Prop :=
  ∃ s, Says remark s ∧ ∃ w, w <:+: lower s ∧ Reads ((lower keyword).map token) w

/-- The primary keys are unique, and the texts that a keyword is looked for in are ASCII. -/
structure Tables.WellFormed (db : Tables) : Prop where
  reports : (db.reports.map Report.id).Nodup
  remarks : (db.remarks.map Remark.id).Nodup
  ascii : ∀ remark ∈ db.remarks, ∀ s, Says remark s → Ascii s

/-- A search finds the remarks with the keyword whose reports pass the filters, each once, by the
date of the report and the id of the remark. -/
structure FoundExactly (nullsFirst : Bool) (db : Tables) (keyword : Str) (f : ReportFilters)
    (out : List RemarkContext) : Prop where
  hits : ∀ c, c ∈ out ↔ ∃ remark ∈ db.remarks, ∃ report ∈ db.reports, remark.reportId = report.id ∧
    Passes f report ∧ Contains keyword remark ∧ c = remarkContext (remark, report)
  once : (out.map RemarkContext.id).Nodup
  ordered : out.Pairwise fun a b =>
    orderKey nullsFirst a.reportDate a.id < orderKey nullsFirst b.reportDate b.id

/-- The criteria of a saved search are those of a query. -/
structure SavedSearch.Saves (search : SavedSearch) (q : Criteria) : Prop where
  keyword : (search.criteria.get? "keyword".toList).join = q.keyword
  field : (search.criteria.get? "field".toList).join = q.field
  wellUid : (search.criteria.get? "well_uid".toList).join = q.wellUid
  dateFrom : (search.criteria.get? "date_from".toList).join = q.dateFrom
  dateTo : (search.criteria.get? "date_to".toList).join = q.dateTo

/-- The remark search on some tables: it finds exactly the remarks, and a saved search finds what
the ad-hoc search with its criteria finds. -/
structure RemarkSearch (nullsFirst : Bool) (db : Tables) (keyword : Str)
    (field wellUid : Option Str) (dateFrom dateTo : Option ℕ) : Prop where
  exact : FoundExactly nullsFirst db keyword
    { field := field, wellUid := wellUid, dateFrom := dateFrom, dateTo := dateTo }
    (searchRemarks nullsFirst db (some keyword) field wellUid dateFrom dateTo)
  replay : ∀ searchId search q,
    db.searches.find? (fun search => decide (search.id = searchId)) = some search →
      search.Saves q → runSearch nullsFirst db searchId = adHocSearch nullsFirst db q

/-- No remark of a report that passes the filters has an instance of the keyword without having the
keyword itself. -/
def OnlyLiteral (db : Tables) (keyword : Str) (f : ReportFilters) : Prop :=
  ∀ remark ∈ db.remarks, ∀ report ∈ db.reports, remark.reportId = report.id → Passes f report →
    HasInstance keyword remark → Contains keyword remark

/-! ## 5. What the conditions select

Condition by condition: a filter that is absent or empty selects everything, any other selects by
its column. -/

section Conditions

variable {stmt : Statement} {row : Remark × Report}

theorem selects_append (cond : Remark × Report → Option Bool) :
    selects (stmt ++ [cond]) row = true ↔ selects stmt row = true ∧ cond row = some true := by
  simp only [selects, List.all_append, List.all_cons, List.all_nil, Bool.and_true,
    Bool.and_eq_true, decide_eq_true_eq]

/-- An equality filter selects by its column, if it is given and not empty. -/
theorem selects_whereEq {value : Option Str} {column : Report → Option Str} :
    selects (whereEq value column stmt) row = true ↔
      selects stmt row = true ∧ ∀ v, value = some v → v ≠ [] → column row.2 = some v := by
  unfold whereEq
  split
  · simp
  · simp
  · rename_i v hv
    rw [selects_append]
    refine and_congr_right fun _ => ?_
    constructor
    · intro h w hw _
      obtain rfl := Option.some.inj hw
      obtain ⟨x, hx, heq⟩ := Option.map_eq_some_iff.mp h
      rw [hx, of_decide_eq_true heq]
    · intro h
      rw [h v rfl hv, Option.map_some, decide_eq_true rfl]

/-- A date filter selects the reports with a date on its side. -/
theorem selects_whereDate {day : Option ℕ} {compare : ℕ → ℕ → Bool} :
    selects (whereDate day compare stmt) row = true ↔ selects stmt row = true ∧
      ∀ d, day = some d → ∃ x, row.2.reportDate = some x ∧ compare x d = true := by
  unfold whereDate
  split
  · simp
  · rw [selects_append, Option.map_eq_some_iff]
    simp only [Option.some.injEq, forall_eq']

/-- All filters together select the reports that pass them. -/
theorem selects_reportFilters {f : ReportFilters} :
    selects (reportFilters stmt f) row = true ↔ selects stmt row = true ∧ Passes f row.2 := by
  simp only [reportFilters, selects_whereDate, selects_whereEq, decide_eq_true_eq]
  constructor
  · rintro ⟨⟨⟨⟨⟨⟨⟨hstmt, hfield⟩, hrig⟩, hwell⟩, hoperation⟩, hmud⟩, hfrom⟩, hto⟩
    exact ⟨hstmt, hfield, hrig, hwell, hoperation, hmud, hfrom, hto⟩
  · rintro ⟨hstmt, h⟩
    exact ⟨⟨⟨⟨⟨⟨⟨hstmt, h.field⟩, h.rig⟩, h.wellUid⟩, h.operationType⟩, h.mudSystem⟩, h.dateFrom⟩,
      h.dateTo⟩

/-- A disjunction is true if one side is, whatever the other is. -/
theorem sqlOr_eq_true {a b : Option Bool} :
    sqlOr a b = some true ↔ a = some true ∨ b = some true := by
  rcases a with _ | _ | _ <;> rcases b with _ | _ | _ <;> simp [sqlOr]

/-- A column is like the pattern of a keyword if it has an instance of the keyword. -/
theorem sqlLike_eq_true {column : Option Str} {k : Str} :
    sqlLike (column.map lower) ('%' :: (lower k ++ ['%'])) = some true ↔
      ∃ s, column = some s ∧ ∃ w, w <:+: lower s ∧ Reads ((lower k).map token) w := by
  have hpattern : ('%' :: (lower k ++ ['%'])).map token =
      .anyRun :: ((lower k).map token ++ [.anyRun]) := by
    rw [List.map_cons, List.map_append]
    rfl
  rw [sqlLike, hpattern, Option.map_map, Option.map_eq_some_iff]
  simp only [Function.comp_apply, accepts_iff, reads_within]

/-- The keyword selects the remarks with an instance of it. -/
theorem selects_whereKeyword {k : Str} (hk : k ≠ []) :
    selects (whereKeyword (some k) stmt) row = true ↔
      selects stmt row = true ∧ HasInstance k row.1 := by
  obtain ⟨c, k, rfl⟩ := List.exists_cons_of_ne_nil hk
  change selects (stmt ++ [_]) row = true ↔ _
  rw [selects_append, sqlOr_eq_true, sqlLike_eq_true, sqlLike_eq_true, HasInstance]
  simp only [Says, or_and_right, exists_or]

end Conditions

/-! ## 6. What a search finds

The rows of the join, filtered and ordered.  The order is total on remarks, as ids are keys, so the
reply is determined by the set of remarks in it. -/

section Search

variable {nullsFirst : Bool} {db : Tables} {keyword : Str} {f : ReportFilters}
  {field wellUid : Option Str} {dateFrom dateTo : Option ℕ}

theorem mem_joined {row : Remark × Report} : row ∈ joined db ↔
    row.1 ∈ db.remarks ∧ row.2 ∈ db.reports ∧ row.1.reportId = row.2.id := by
  obtain ⟨remark, report⟩ := row
  simp only [joined, List.mem_flatMap, List.mem_map, List.mem_filter, decide_eq_true_eq,
    Prod.mk.injEq]
  constructor
  · rintro ⟨remark', hremark, report', ⟨hreport, heq⟩, rfl, rfl⟩
    exact ⟨hremark, hreport, heq⟩
  · rintro ⟨hremark, hreport, heq⟩
    exact ⟨remark, hremark, report, ⟨hreport, heq⟩, rfl, rfl⟩

/-- A remark has one report. -/
theorem joined_pairwise (h : db.WellFormed) :
    (joined db).Pairwise fun a b => a.1.id ≠ b.1.id := by
  rw [joined, List.pairwise_flatMap]
  constructor
  · intro remark _
    have hreports : (db.reports.filter fun report => decide (remark.reportId = report.id)).Pairwise
        fun a b => a.id ≠ b.id := by
      have hids := h.reports
      rw [List.Nodup, List.pairwise_map] at hids
      exact hids.sublist List.filter_sublist
    rw [List.pairwise_map]
    refine hreports.imp_of_mem fun {a b} ha hb hne => absurd ?_ hne
    have ha := of_decide_eq_true (List.mem_filter.mp ha).2
    have hb := of_decide_eq_true (List.mem_filter.mp hb).2
    exact ha.symm.trans hb
  · have hids := h.remarks
    rw [List.Nodup, List.pairwise_map] at hids
    refine hids.imp fun {a b} hne x hx y hy => ?_
    obtain ⟨_, -, rfl⟩ := List.mem_map.mp hx
    obtain ⟨_, -, rfl⟩ := List.mem_map.mp hy
    exact hne

theorem mem_searchRemarks (hk : keyword ≠ []) {c : RemarkContext} :
    c ∈ searchRemarks nullsFirst db (some keyword) field wellUid dateFrom dateTo ↔
      ∃ remark ∈ db.remarks, ∃ report ∈ db.reports, remark.reportId = report.id ∧
        Passes { field := field, wellUid := wellUid, dateFrom := dateFrom, dateTo := dateTo }
          report ∧
        HasInstance keyword remark ∧ c = remarkContext (remark, report) := by
  rw [searchRemarks, (List.perm_insertionSort _ _).mem_iff, List.mem_map]
  constructor
  · rintro ⟨⟨remark, report⟩, hrow, rfl⟩
    obtain ⟨hjoined, hselected⟩ := List.mem_filter.mp hrow
    obtain ⟨hremark, hreport, hid⟩ := mem_joined.mp hjoined
    obtain ⟨hfilters, hinstance⟩ := (selects_whereKeyword hk).mp hselected
    exact ⟨remark, hremark, report, hreport, hid, (selects_reportFilters.mp hfilters).2,
      hinstance, rfl⟩
  · rintro ⟨remark, hremark, report, hreport, hid, hpasses, hinstance, rfl⟩
    refine ⟨(remark, report), List.mem_filter.mpr ⟨mem_joined.mpr ⟨hremark, hreport, hid⟩, ?_⟩, rfl⟩
    exact (selects_whereKeyword hk).mpr
      ⟨selects_reportFilters.mpr ⟨List.all_nil, hpasses⟩, hinstance⟩

theorem once_searchRemarks (h : db.WellFormed) (keyword : Option Str) :
    ((searchRemarks nullsFirst db keyword field wellUid dateFrom dateTo).map
      RemarkContext.id).Nodup := by
  rw [searchRemarks, ((List.perm_insertionSort _ _).map _).nodup_iff, List.map_map, List.Nodup,
    List.pairwise_map]
  exact (joined_pairwise h).sublist List.filter_sublist

/-- What is found comes by the date of the report and the id of the remark. -/
theorem ordered_searchRemarks (h : db.WellFormed) (keyword : Option Str) :
    (searchRemarks nullsFirst db keyword field wellUid dateFrom dateTo).Pairwise fun a b =>
      orderKey nullsFirst a.reportDate a.id < orderKey nullsFirst b.reportDate b.id := by
  have htotal : Std.Total fun a b : RemarkContext =>
      orderKey nullsFirst a.reportDate a.id ≤ orderKey nullsFirst b.reportDate b.id :=
    ⟨fun a b => le_total _ _⟩
  have htrans : IsTrans RemarkContext fun a b =>
      orderKey nullsFirst a.reportDate a.id ≤ orderKey nullsFirst b.reportDate b.id :=
    ⟨fun a b c => le_trans⟩
  have hsorted : (searchRemarks nullsFirst db keyword field wellUid dateFrom dateTo).Pairwise
      fun a b => orderKey nullsFirst a.reportDate a.id ≤ orderKey nullsFirst b.reportDate b.id :=
    List.pairwise_insertionSort _ _
  have hids : ((searchRemarks nullsFirst db keyword field wellUid dateFrom dateTo).map
      RemarkContext.id).Nodup := once_searchRemarks h keyword
  rw [List.Nodup, List.pairwise_map] at hids
  refine (hsorted.and hids).imp fun {a b} hab => lt_of_le_of_ne hab.1 fun heq => hab.2 ?_
  have hid : (a.id : ℤ) = b.id := congrArg (fun key => (ofLex key).2) heq
  exact Int.ofNat_inj.mp hid

/-- Every text is an instance of itself. -/
theorem reads_self (s : Str) : Reads (s.map token) s := by
  induction s with
  | nil => exact .nil
  | cons c s ih =>
    rw [List.map_cons, token]
    split
    · exact .anyRun [c] ih
    · split
      · exact .anyLetter c ih
      · exact .letter c ih

/-- A remark with the keyword has an instance of it. -/
theorem hasInstance_of_contains {remark : Remark} (h : Contains keyword remark) :
    HasInstance keyword remark := by
  obtain ⟨s, hs, hwithin⟩ := h
  exact ⟨s, hs, lower keyword, hwithin, reads_self _⟩

/-- **A search is exact if and only if** only remarks with the keyword have instances of it. -/
theorem foundExactly_iff (h : db.WellFormed) (hk : keyword ≠ []) :
    FoundExactly nullsFirst db keyword
        { field := field, wellUid := wellUid, dateFrom := dateFrom, dateTo := dateTo }
        (searchRemarks nullsFirst db (some keyword) field wellUid dateFrom dateTo) ↔
      OnlyLiteral db keyword
        { field := field, wellUid := wellUid, dateFrom := dateFrom, dateTo := dateTo } := by
  constructor
  · intro hexact remark hremark report hreport hid hpasses hinstance
    have hfound : remarkContext (remark, report) ∈
        searchRemarks nullsFirst db (some keyword) field wellUid dateFrom dateTo :=
      (mem_searchRemarks hk).mpr
        ⟨remark, hremark, report, hreport, hid, hpasses, hinstance, rfl⟩
    obtain ⟨remark', -, report', -, -, -, ⟨s, hs, hwithin⟩, heq⟩ := (hexact.hits _).mp hfound
    -- the answer shows the text and the category of the remark
    have htext : remark.text = remark'.text := congrArg RemarkContext.text heq
    have hcategory : remark.category = remark'.category := congrArg RemarkContext.category heq
    refine ⟨s, ?_, hwithin⟩
    rwa [Says, htext, hcategory]
  · intro honly
    refine ⟨fun c => ?_, once_searchRemarks h _, ordered_searchRemarks h _⟩
    rw [mem_searchRemarks hk]
    constructor
    · rintro ⟨remark, hremark, report, hreport, hid, hpasses, hinstance, rfl⟩
      exact ⟨remark, hremark, report, hreport, hid, hpasses,
        honly remark hremark report hreport hid hpasses hinstance, rfl⟩
    · rintro ⟨remark, hremark, report, hreport, hid, hpasses, hcontains, rfl⟩
      exact ⟨remark, hremark, report, hreport, hid, hpasses, hasInstance_of_contains hcontains, rfl⟩

/-- A saved search is the ad-hoc search with its criteria. -/
theorem runSearch_eq {searchId : ℕ} {search : SavedSearch} {q : Criteria}
    (hfind : db.searches.find? (fun search => decide (search.id = searchId)) = some search)
    (h : search.Saves q) : runSearch nullsFirst db searchId = adHocSearch nullsFirst db q := by
  rw [runSearch, hfind, adHocSearch]
  dsimp only
  rw [h.keyword, h.field, h.wellUid, h.dateFrom, h.dateTo]

/-- A date is refused if it is there and is no ISO date. -/
theorem parseDate_error {raw : Option Str} {e : SearchError} (h : parseDate raw = .error e) :
    ∃ s, raw = some s ∧ isoDate? s = none ∧ e = .invalidDate s := by
  unfold parseDate at h
  split at h
  · exact absurd h (by simp)
  · exact absurd h (by simp)
  · split at h
    · exact ⟨_, rfl, ‹_›, (Except.error.inj h).symm⟩
    · exact absurd h (by simp)

/-- **Why a saved search is refused**: there is no such search, or one of its dates is no ISO date,
and then the detail shows that date. -/
theorem runSearch_error {searchId : ℕ} {e : SearchError}
    (h : runSearch nullsFirst db searchId = .error e) :
    (e.statusCode = 404 ∧ ∀ search ∈ db.searches, search.id ≠ searchId) ∨
      (e.statusCode = 400 ∧ ∃ search ∈ db.searches, search.id = searchId ∧
        ∃ date ∈ ["date_from", "date_to"], ∃ raw, search.criteria.get? date.toList = some (some raw) ∧
          isoDate? raw = none ∧ e = .invalidDate raw) := by
  rw [runSearch] at h
  split at h
  · rename_i hnone
    refine Or.inl ⟨by rw [← Except.error.inj h]; rfl, fun search hmem heq => ?_⟩
    exact absurd (List.find?_eq_none.mp hnone search hmem) (by simp [heq])
  · rename_i search hfind
    have hmem := List.mem_of_find?_eq_some hfind
    have hid : search.id = searchId := by simpa using List.find?_some hfind
    refine Or.inr ?_
    dsimp only at h
    -- the dates are read in this order, and the first that cannot be is reported
    cases hfrom : parseDate (search.criteria.get? "date_from".toList).join with
    | error e' =>
      rw [hfrom] at h
      obtain rfl : e' = e := Except.error.inj h
      obtain ⟨raw, hraw, hiso, rfl⟩ := parseDate_error hfrom
      exact ⟨rfl, search, hmem, hid, _, by simp, raw, Option.join_eq_some_iff.mp hraw, hiso, rfl⟩
    | ok dateFrom =>
      rw [hfrom] at h
      cases hto : parseDate (search.criteria.get? "date_to".toList).join with
      | error e' =>
        rw [hto] at h
        obtain rfl : e' = e := Except.error.inj h
        obtain ⟨raw, hraw, hiso, rfl⟩ := parseDate_error hto
        exact ⟨rfl, search, hmem, hid, _, by simp, raw, Option.join_eq_some_iff.mp hraw, hiso, rfl⟩
      | ok dateTo =>
        rw [hto] at h
        exact absurd h (by simp [bind, Except.bind, pure, Except.pure])

/-- A search and its saved copy are exact together. -/
theorem remarkSearch_iff (h : db.WellFormed) (hk : keyword ≠ []) :
    RemarkSearch nullsFirst db keyword field wellUid dateFrom dateTo ↔ OnlyLiteral db keyword
      { field := field, wellUid := wellUid, dateFrom := dateFrom, dateTo := dateTo } := by
  constructor
  · exact fun hsearch => (foundExactly_iff h hk).mp hsearch.exact
  · exact fun honly => ⟨(foundExactly_iff h hk).mpr honly,
      fun _ _ _ hfind hsaves => runSearch_eq hfind hsaves⟩

end Search

/-! ## 7. Keywords that are safe

On some data a wildcard may do no harm.  To show that a keyword with one is not safe on all data, a
remark is made from it: each `_` becomes an `x`, and each `%` is left out.  The result is an
instance of the keyword and does not contain it. -/

/-- The keyword has neither wildcard. -/
def Plain (keyword : Str) : Prop := '%' ∉ keyword ∧ '_' ∉ keyword

theorem token_of_ne {c : Char} (h : c ≠ '%') (h' : c ≠ '_') : token c = .letter c := by
  rw [token, if_neg h, if_neg h']

/-- Only a character that is no letter is lowered to a character that is no letter. -/
theorem eq_of_toLower_eq {c d : Char} (hd : d.isAlpha = false) (h : c.toLower = d) : c = d := by
  rw [← h, Char.isAlpha_toLower_eq_isAlpha, Char.isAlpha, Bool.or_eq_false_iff] at hd
  rw [← h, Char.toLower_eq_of_not_isUpper (by rw [hd.1]; decide)]

theorem mem_lower_iff {c : Char} (hc : c.isAlpha = false) {s : Str} : c ∈ lower s ↔ c ∈ s := by
  rw [lower, List.mem_map]
  constructor
  · rintro ⟨d, hd, heq⟩
    rwa [← eq_of_toLower_eq hc heq]
  · intro h
    refine ⟨c, h, Char.toLower_eq_of_not_isUpper ?_⟩
    rw [Char.isAlpha, Bool.or_eq_false_iff] at hc
    rw [hc.1]
    decide

theorem plain_lower_iff {keyword : Str} : Plain (lower keyword) ↔ Plain keyword := by
  rw [Plain, Plain, mem_lower_iff (by decide), mem_lower_iff (by decide)]

/-- **A plain keyword is its only instance.** -/
theorem contains_of_hasInstance {keyword : Str} (h : Plain keyword) {remark : Remark}
    (hinstance : HasInstance keyword remark) : Contains keyword remark := by
  obtain ⟨s, hs, w, hw, hreads⟩ := hinstance
  have hplain := plain_lower_iff.mpr h
  have hletters : (lower keyword).map token = (lower keyword).map .letter := by
    refine List.map_congr_left fun c hc => token_of_ne ?_ ?_
    · rintro rfl
      exact hplain.1 hc
    · rintro rfl
      exact hplain.2 hc
  rw [hletters, reads_literal] at hreads
  exact ⟨s, hs, hreads ▸ hw⟩

theorem ascii_lower {s : Str} (h : Ascii s) : Ascii (lower s) := by
  intro c hc
  obtain ⟨d, hd, rfl⟩ := List.mem_map.mp hc
  by_cases hupper : d.isUpper = true
  · have hle : d.toNat ≤ 90 := by
      rw [Char.isUpper, decide_eq_true_eq] at hupper
      exact UInt32.le_iff_toNat_le.mp hupper.2
    rw [Char.toLower_eq_of_isUpper hupper, Char.toNat_ofNat]
    split <;> omega
  · rw [Char.toLower_eq_of_not_isUpper hupper]
    exact h d hd

/-- The keyword with its wildcards filled in: each `_` an `x`, each `%` nothing. -/
def filledIn (keyword : Str) : Str := fill 'x' ((lower keyword).map token)

theorem mem_filledIn {keyword : Str} {c : Char} (h : c ∈ filledIn keyword) :
    c = 'x' ∨ c ∈ lower keyword ∧ c ≠ '%' ∧ c ≠ '_' := by
  refine (mem_fill h).imp_right fun hletter => ?_
  obtain ⟨d, hd, htoken⟩ := List.mem_map.mp hletter
  rw [token] at htoken
  split at htoken
  · cases htoken
  · split at htoken
    · cases htoken
    · obtain rfl := Token.letter.inj htoken
      exact ⟨hd, ‹_›, ‹_›⟩

theorem lower_filledIn (keyword : Str) : lower (filledIn keyword) = filledIn keyword := by
  refine (List.map_congr_left fun c hc => ?_).trans (List.map_id _)
  rcases mem_filledIn hc with rfl | ⟨hlower, -, -⟩
  · rfl
  · obtain ⟨d, -, rfl⟩ := List.mem_map.mp hlower
    exact Char.toLower_toLower_eq_toLower d

/-- One remark in one report, with this text. -/
def tablesWith (text : Str) : Tables where
  reports := [⟨1, none, none, none, none, none, none⟩]
  remarks := [⟨1, 1, none, none, none, some text⟩]
  searches := []

theorem wellFormed_tablesWith {text : Str} (h : Ascii text) : (tablesWith text).WellFormed where
  reports := List.nodup_singleton _
  remarks := List.nodup_singleton _
  ascii := by
    intro remark hremark s hs
    obtain rfl := List.mem_singleton.mp hremark
    rcases hs with hs | hs
    · rwa [← Option.some.inj hs]
    · cases hs

/-- **A keyword with a wildcard has an instance that does not contain it.** -/
theorem plain_of_onlyLiteral {keyword : Str}
    (h : OnlyLiteral (tablesWith (filledIn keyword)) keyword {}) : Plain keyword := by
  have hinstance : HasInstance keyword ⟨1, 1, none, none, none, some (filledIn keyword)⟩ :=
    ⟨_, Or.inl rfl, filledIn keyword, by rw [lower_filledIn], reads_fill _ _⟩
  have hpasses : Passes {} ⟨1, none, none, none, none, none, none⟩ := by
    constructor <;> rintro _ ⟨⟩
  obtain ⟨s, hs, hwithin⟩ := h _ List.mem_cons_self _ List.mem_cons_self rfl hpasses hinstance
  obtain rfl : filledIn keyword = s := hs.elim Option.some.inj nofun
  rw [lower_filledIn] at hwithin
  rw [← plain_lower_iff]
  constructor
  · intro hmem
    rcases mem_filledIn (hwithin.subset hmem) with h | ⟨-, h, -⟩
    · exact absurd h (by decide)
    · exact h rfl
  · intro hmem
    rcases mem_filledIn (hwithin.subset hmem) with h | ⟨-, -, h⟩
    · exact absurd h (by decide)
    · exact h rfl

/-- **Remark search is substring search** on some tables exactly if no remark has an instance of
the keyword without the keyword itself; and on all tables exactly if the keyword has neither `%`
nor `_`.

The first half is about the tables and filters at hand, the second about the keyword alone.
Filters count in the first: a remark of a report that does not pass them is not found either way. -/
theorem remark_search_iff {keyword : Str} (hne : keyword ≠ []) (hascii : Ascii keyword) :
    (∀ nullsFirst db field wellUid dateFrom dateTo, db.WellFormed →
      (RemarkSearch nullsFirst db keyword field wellUid dateFrom dateTo ↔ OnlyLiteral db keyword
        { field := field, wellUid := wellUid, dateFrom := dateFrom, dateTo := dateTo })) ∧
      ((∀ nullsFirst db field wellUid dateFrom dateTo, db.WellFormed →
        RemarkSearch nullsFirst db keyword field wellUid dateFrom dateTo) ↔ Plain keyword) := by
  refine ⟨fun _ _ _ _ _ _ hdb => remarkSearch_iff hdb hne, ?_⟩
  constructor
  · intro hall
    have hfilled : Ascii (filledIn keyword) := by
      intro c hc
      rcases mem_filledIn hc with rfl | ⟨hlower, -, -⟩
      · decide
      · exact ascii_lower hascii c hlower
    have hdb := wellFormed_tablesWith hfilled
    exact plain_of_onlyLiteral ((remarkSearch_iff hdb hne).mp (hall true _ none none none none hdb))
  · intro hplain nullsFirst db field wellUid dateFrom dateTo hdb
    exact (remarkSearch_iff hdb hne).mpr fun _ _ _ _ _ _ => contains_of_hasInstance hplain

/-! Reports of two fields, one of them without a date, and a saved search for tight hole in the north
since the new year.  Two remarks have the keyword and are filtered out, by the field and by the
date. -/

def morningReports : Tables where
  reports :=
    [⟨1, isoDate? "2024-01-02".toList, some "North".toList, some "R1".toList, some "W-1".toList,
        some "drilling".toList, some "OBM".toList⟩,
      ⟨2, isoDate? "2024-01-05".toList, some "North".toList, none, some "W-2".toList, none, none⟩,
      ⟨3, isoDate? "2024-01-05".toList, some "South".toList, none, some "W-3".toList, none, none⟩,
      ⟨4, none, some "North".toList, none, some "W-1".toList, none, none⟩]
  remarks :=
    [⟨1, 2, none, none, some "hole".toList, some "Tight hole at 1200 m".toList⟩,
      ⟨2, 1, none, none, some "TIGHT HOLE".toList, none⟩,
      ⟨3, 3, none, none, none, some "tight spot".toList⟩,
      ⟨4, 1, none, none, some "trip".toList, some "POOH, no tight spots".toList⟩,
      ⟨5, 2, none, none, some "mud".toList, some "Circulate".toList⟩,
      ⟨6, 4, none, none, none, some "tight".toList⟩]
  searches :=
    [⟨3, []⟩,
      ⟨7, [("keyword", "Tight"), ("field", "North"), ("date_from", "2024-01-01")].map fun c =>
        (c.1.toList, some c.2.toList)⟩]

theorem wellFormed_morningReports : morningReports.WellFormed where
  reports := by decide +kernel
  remarks := by decide +kernel
  ascii := by
    have hascii : ∀ remark ∈ morningReports.remarks,
        ∀ s ∈ remark.text.toList ++ remark.category.toList, ∀ c ∈ s, c.toNat < 128 := by
      simp [morningReports, or_imp, forall_and]
    intro remark hremark s hs
    refine hascii remark hremark s (List.mem_append.mpr ?_)
    exact hs.imp Option.mem_toList.mpr Option.mem_toList.mpr

/-- The search since 2024-01-01 finds three remarks, by the dates of their reports; so does the saved
one. -/
theorem remark_search_morningReports :
    RemarkSearch true morningReports "Tight".toList (some "North".toList) none
        (isoDate? "2024-01-01".toList) none ∧
      (runSearch true morningReports 7).toOption.map (List.map RemarkContext.id) =
        some [2, 4, 1] :=
  ⟨(remark_search_iff (by decide +kernel) (by simp [Ascii])).2.mpr
      (by unfold Plain; decide +kernel) true _ _ none _ none wellFormed_morningReports,
    by decide +kernel⟩

/-- **A percent sign is looked for, and a remark without one is found.** -/
theorem percent_found :
    (tablesWith "50 bbl lost".toList).WellFormed ∧
      (searchRemarks true (tablesWith "50 bbl lost".toList) (some "0% l".toList) none none none
        none).map RemarkContext.text = [some "50 bbl lost".toList] ∧
      ¬RemarkSearch true (tablesWith "50 bbl lost".toList) "0% l".toList none none none none := by
  have hdb : (tablesWith "50 bbl lost".toList).WellFormed :=
    wellFormed_tablesWith (by simp [Ascii])
  have hfound : remarkContext (⟨1, 1, none, none, none, some "50 bbl lost".toList⟩,
      ⟨1, none, none, none, none, none, none⟩) ∈ searchRemarks true
        (tablesWith "50 bbl lost".toList) (some "0% l".toList) none none none none := by
    decide +kernel
  refine ⟨hdb, by decide +kernel, fun hsearch => ?_⟩
  obtain ⟨remark, hremark, -, -, -, -, ⟨s, hs, hwithin⟩, -⟩ := (hsearch.exact.hits _).mp hfound
  obtain rfl := List.mem_singleton.mp hremark
  obtain rfl : "50 bbl lost".toList = s := hs.elim Option.some.inj nofun
  exact absurd hwithin (by decide +kernel)

end Reports
end WitsmlViewer
