/-
# Replacing a user's page grants (`set_user_pages`)

The grants that a user has are deleted and the requested ones are added, in one flush.  The flush
inserts first, so a page that the user keeps is inserted next to its old row, against
`uq_page_grant`; the transaction is rolled back and the request answered by 500.

`grants_replaced_iff`: a request replaces the grants, or is refused with all grants as they were,
exactly if it names an unknown page or no page that the user has already.

The order is the unit of work's, not the code's: the code deletes the old objects and adds the new
ones, and the flush in between, which would have kept them in this order, is not there.  Replacing
a set by one that overlaps it is the ordinary use of the endpoint, so the condition is about most
requests.  An unknown page is found before anything is written, and such a request is refused as it
should be.
-/
import WitsmlViewer.Privileges

namespace WitsmlViewer.Api

open Py

/-! ## 1. Rows of a user

The grants of one user, and everybody else's.  The request is about the first and must not touch
the second. -/

namespace Db

variable (db : Db)

/-- The rows of a user. -/
def grantsOf (userId : ℤ) : List PageGrant := db.grants.filter fun g => g.userId = userId

/-- The rows of everybody else. -/
def otherGrants (userId : ℤ) : List PageGrant := db.grants.filter fun g => g.userId ≠ userId

/-- A page that the user has. -/
def Grants (userId pageId : ℤ) : Prop := ∃ g ∈ db.grants, g.userId = userId ∧ g.pageId = pageId

instance (userId pageId : ℤ) : Decidable (db.Grants userId pageId) :=
  inferInstanceAs (Decidable (∃ g ∈ db.grants, _))

/-- A page that exists. -/
def Known (pageId : ℤ) : Prop := (db.findPage pageId).isSome = true

instance (pageId : ℤ) : Decidable (db.Known pageId) := inferInstanceAs (Decidable (_ = true))

end Db

/-! ## 2. The flush

The route sorts the ids and drops repetitions, so that a request may name a page twice.  Then every
insertion is for another page, and it fails exactly if the user has that page already. -/

theorem mem_sortedIds {ids : List ℤ} {id : ℤ} : id ∈ Db.sortedIds ids ↔ id ∈ ids := by
  rw [Db.sortedIds, List.mem_insertionSort, List.mem_dedup]

theorem nodup_sortedIds (ids : List ℤ) : (Db.sortedIds ids).Nodup :=
  (List.perm_insertionSort _ _).nodup_iff.mpr (List.nodup_dedup ids)

theorem sortedIds_pairwise (ids : List ℤ) : (Db.sortedIds ids).Pairwise (· < ·) := by
  have hsorted : (Db.sortedIds ids).Pairwise (· ≤ ·) := List.pairwise_insertionSort _ _
  refine (hsorted.and (nodup_sortedIds ids)).imp ?_
  exact fun h => lt_of_le_of_ne h.1 h.2

/-- **What the insertions do**: they add a row for each page, or one of the pages is granted.  The
induction is on the ids; the table grows on the way, and a row that has been added is for a page
that does not come again. -/
theorem insertGrants_spec (db : Db) (userId : ℤ) {ids : List ℤ} (hnodup : ids.Nodup) :
    ((∀ id ∈ ids, ¬db.Grants userId id) ∧ ∃ db' new, Db.insertGrants userId ids db = .ok db' ∧
      db'.grants = db.grants ++ new ∧ (∀ g ∈ new, g.userId = userId) ∧
      new.map PageGrant.pageId = ids) ∨
    ((∃ id ∈ ids, db.Grants userId id) ∧ Db.insertGrants userId ids db = .error 500) := by
  induction ids generalizing db with
  | nil => exact Or.inl ⟨by simp, db, [], rfl, by simp, by simp, rfl⟩
  | cons id ids ih =>
    obtain ⟨hid, hnodup⟩ := List.nodup_cons.mp hnodup
    rw [Db.insertGrants]
    split
    · rename_i hany
      obtain ⟨g, hg, hgrant⟩ := List.any_eq_true.mp hany
      exact Or.inr ⟨⟨id, List.mem_cons_self, g, hg, by simpa using hgrant⟩, rfl⟩
    · rename_i hfree
      have hfree : ¬db.Grants userId id := by
        rintro ⟨g, hg, hgrant⟩
        exact hfree (List.any_eq_true.mpr ⟨g, hg, by simpa using hgrant⟩)
      -- the new row is of another page than those to come
      have hsame : ∀ id' ∈ ids, Db.Grants { db with
          grants := db.grants ++ [⟨db.nextGrant, userId, id⟩]
          nextGrant := db.nextGrant + 1 } userId id' ↔ db.Grants userId id' := by
        intro id' hid'
        have hne : id ≠ id' := fun heq => hid (heq ▸ hid')
        simp [Db.Grants, or_and_right, exists_or, hne]
      rcases ih _ hnodup with ⟨hnone, db', new, hrun, hgrants, huser, hpages⟩ | ⟨⟨id', hid', hgrant⟩, hrun⟩
      · refine Or.inl ⟨?_, db', ⟨db.nextGrant, userId, id⟩ :: new, hrun, ?_, ?_, by simp [hpages]⟩
        · intro id' hid'
          rcases List.mem_cons.mp hid' with rfl | hid'
          · exact hfree
          · exact fun h => hnone id' hid' ((hsame id' hid').mpr h)
        · rw [hgrants]
          simp
        · intro g hg
          rcases List.mem_cons.mp hg with rfl | hg
          · rfl
          · exact huser g hg
      · exact Or.inr ⟨⟨id', List.mem_cons_of_mem _ hid', (hsame id' hid').mp hgrant⟩, hrun⟩

/-- **What the route does**, once the user is found. -/
theorem setUserPages_spec {db : Db} {userId : ℤ} (huser : (db.findUser userId).isSome = true)
    (pageIds : List ℤ) :
    ((∃ id ∈ pageIds, ¬db.Known id) ∧ db.setUserPages userId pageIds = .error 404) ∨
    ((∀ id ∈ pageIds, db.Known id) ∧
      (((∃ id ∈ pageIds, db.Grants userId id) ∧ db.setUserPages userId pageIds = .error 500) ∨
        ((∀ id ∈ pageIds, ¬db.Grants userId id) ∧ ∃ db',
          db.setUserPages userId pageIds = .ok (db', Db.sortedIds pageIds) ∧
          (db'.grantsOf userId).map PageGrant.pageId = Db.sortedIds pageIds ∧
          db'.otherGrants userId = db.otherGrants userId))) := by
  obtain ⟨u, hfind⟩ := Option.isSome_iff_exists.mp huser
  unfold Db.setUserPages
  rw [hfind]
  dsimp only
  split
  · rename_i hall
    have hknown : ∀ id ∈ pageIds, db.Known id := by
      intro id hid
      exact List.all_eq_true.mp hall id (mem_sortedIds.mpr hid)
    refine Or.inr ⟨hknown, ?_⟩
    rcases insertGrants_spec db userId (nodup_sortedIds pageIds) with
      ⟨hnone, db', new, hrun, hgrants, hnew, hpages⟩ | ⟨⟨id, hid, hgrant⟩, hrun⟩
    · refine Or.inr ⟨fun id hid => hnone id (mem_sortedIds.mpr hid), ?_⟩
      have hapart : ∀ g ∈ new, g ∉ db.grants.filter (·.userId = userId) := by
        intro g hg hmem
        have hpage : g.pageId ∈ Db.sortedIds pageIds := hpages ▸ List.mem_map_of_mem hg
        exact hnone _ hpage ⟨g, (List.mem_filter.mp hmem).1, hnew g hg, rfl⟩
      -- the old rows of the user go, the new ones stay
      have hleft : db'.grants.filter (fun g => g ∉ db.grants.filter (·.userId = userId)) =
          db.otherGrants userId ++ new := by
        rw [hgrants, List.filter_append]
        congr 1
        · exact List.filter_congr fun g hg => by simp [hg]
        · exact List.filter_eq_self.mpr fun g hg => decide_eq_true (hapart g hg)
      rw [hrun]
      refine ⟨_, rfl, ?_, ?_⟩
      · have hnil : (db.otherGrants userId).filter (fun g => g.userId = userId) = [] :=
          List.filter_eq_nil_iff.mpr fun g hg => by simpa using (List.mem_filter.mp hg).2
        have hself : new.filter (fun g => g.userId = userId) = new :=
          List.filter_eq_self.mpr fun g hg => by simpa using hnew g hg
        rw [Db.grantsOf, hleft, List.filter_append, hnil, hself, List.nil_append, hpages]
      · rw [Db.otherGrants, hleft, List.filter_append]
        have hnil : new.filter (fun g => g.userId ≠ userId) = [] :=
          List.filter_eq_nil_iff.mpr fun g hg => by simpa using hnew g hg
        rw [hnil, List.append_nil, Db.otherGrants, List.filter_filter]
        simp
    · refine Or.inl ⟨⟨id, mem_sortedIds.mp hid, hgrant⟩, ?_⟩
      rw [hrun]
  · rename_i hsome
    refine Or.inl ⟨?_, rfl⟩
    by_contra hall
    push Not at hall
    exact hsome (List.all_eq_true.mpr fun id hid => hall id (mem_sortedIds.mp hid))

/-! ## 3. The request

The answer is part of the law: the pages of a request that succeeds are those that are named,
sorted, and one that fails says that it failed. -/

/-- The request replaces the grants of the user wholesale, or it changes none. -/
structure GrantsReplaced (sec : Security) (s : State) (token : Option Token) (userId : ℤ)
    (pageIds : List ℤ) : Prop where
  known : (∀ id ∈ pageIds, s.db.Known id) → ∃ ids,
    (handle sec s ⟨token, .setUserPages userId pageIds⟩).2 = .ok (.pageIds ids) ∧
    ids.Pairwise (· < ·) ∧ (∀ id, id ∈ ids ↔ id ∈ pageIds) ∧
    (((handle sec s ⟨token, .setUserPages userId pageIds⟩).1.db.grantsOf userId).map
      PageGrant.pageId).Perm ids
  unknown : (∃ id ∈ pageIds, ¬s.db.Known id) →
    (handle sec s ⟨token, .setUserPages userId pageIds⟩).2 = .error 404 ∧
    (handle sec s ⟨token, .setUserPages userId pageIds⟩).1.db.grants = s.db.grants
  others : (handle sec s ⟨token, .setUserPages userId pageIds⟩).1.db.otherGrants userId =
    s.db.otherGrants userId

/-- A super admin is answered what the route makes of the database. -/
theorem handle_setUserPages (sec : Security) {s : State} {token : Option Token} {admin : User}
    (hrole : s.requireSuperAdmin token = .ok admin) (userId : ℤ) (pageIds : List ℤ) :
    (∀ e, s.db.setUserPages userId pageIds = .error e →
      handle sec s ⟨token, .setUserPages userId pageIds⟩ = (s, .error e)) ∧
    ∀ db ids, s.db.setUserPages userId pageIds = .ok (db, ids) →
      handle sec s ⟨token, .setUserPages userId pageIds⟩ =
        ({ s with db := db }, .ok (.pageIds ids)) := by
  refine ⟨fun e hrun => ?_, fun db ids hrun => ?_⟩ <;> simp only [handle, hrole, hrun]

/-- **A super admin's request replaces the grants of a user, or changes none, exactly if** it names
an unknown page, or no page that the user has already.

In the remaining case, all pages known and one of them granted, the grants are as they were, but
the answer is an error of the server's and not a refusal of the request; a client has no way to
tell which part of its request was wrong. -/
theorem grants_replaced_iff {sec : Security} {s : State} {token : Option Token} {admin : User}
    (hrole : s.requireSuperAdmin token = .ok admin) {userId : ℤ}
    (huser : (s.db.findUser userId).isSome = true) (pageIds : List ℤ) :
    GrantsReplaced sec s token userId pageIds ↔
      (∃ id ∈ pageIds, ¬s.db.Known id) ∨ ∀ id ∈ pageIds, ¬s.db.Grants userId id := by
  obtain ⟨herror, hok⟩ := handle_setUserPages sec hrole userId pageIds
  rcases setUserPages_spec huser pageIds with ⟨hunknown, hrun⟩ | ⟨hknown, hrest⟩
  · have hhandle := herror _ hrun
    refine iff_of_true ⟨fun hall => ?_, fun _ => ?_, ?_⟩ (Or.inl hunknown)
    · obtain ⟨id, hid, hno⟩ := hunknown
      exact absurd (hall id hid) hno
    · rw [hhandle]
      exact ⟨rfl, rfl⟩
    · rw [hhandle]
  · have hall : ¬∃ id ∈ pageIds, ¬s.db.Known id := by
      rintro ⟨id, hid, hno⟩
      exact hno (hknown id hid)
    rcases hrest with ⟨⟨id, hid, hgrant⟩, hrun⟩ | ⟨hfree, db', hrun, hpages, hothers⟩
    · have hhandle := herror _ hrun
      refine iff_of_false (fun h => ?_) (fun h => h.elim hall fun hfree => hfree id hid hgrant)
      obtain ⟨ids, hanswer, -⟩ := h.known hknown
      rw [hhandle] at hanswer
      simp at hanswer
    · have hhandle := hok _ _ hrun
      refine iff_of_true ⟨fun _ => ?_, fun h => absurd h hall, ?_⟩ (Or.inr hfree)
      · rw [hhandle]
        refine ⟨_, rfl, sortedIds_pairwise pageIds, fun id => mem_sortedIds, ?_⟩
        rw [hpages]
      · rw [hhandle]
        exact hothers

/-- Three pages, of which bob has the first two; root is logged in. -/
def threePages : State where
  db := { smallState.db with
    grants := [⟨1, 2, 1⟩, ⟨2, 2, 2⟩]
    pages := [1, 2, 3].map fun id => ⟨id, none, "Page".toList, none, none, none, "{}".toList⟩
    nextGrant := 3, nextPage := 4 }
  issued := [(rootToken, 1)]

theorem root_threePages : threePages.requireSuperAdmin (some rootToken) = .ok superAdmin := by
  decide +kernel

/-- **A page that the user keeps makes the request fail.** -/
theorem kept_page_fails :
    handle plainSecurity threePages ⟨some rootToken, .setUserPages 2 [2, 3]⟩ =
      (threePages, .error 500) ∧
    ¬GrantsReplaced plainSecurity threePages (some rootToken) 2 [2, 3] := by
  have hrun : threePages.db.setUserPages 2 [2, 3] = .error 500 := by decide +kernel
  have hhandle := (handle_setUserPages plainSecurity root_threePages 2 [2, 3]).1 _ hrun
  refine ⟨hhandle, fun h => ?_⟩
  obtain ⟨ids, hanswer, -⟩ := h.known (by decide +kernel)
  rw [hhandle] at hanswer
  simp at hanswer

/-- With a page that bob does not have the request does what it should. -/
theorem grants_replaced_iff_threePages :
    GrantsReplaced plainSecurity threePages (some rootToken) 2 [3] ↔
      (∃ id ∈ [3], ¬threePages.db.Known id) ∨ ∀ id ∈ [3], ¬threePages.db.Grants 2 id :=
  grants_replaced_iff root_threePages (by decide +kernel) [3]

end WitsmlViewer.Api
