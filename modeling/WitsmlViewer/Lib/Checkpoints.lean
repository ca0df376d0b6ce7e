/-
# Checkpoints of a reader with open transactions

A reader goes through the items of a growing source.  What it reads it hands to transactions, each of
which is committed to a table or lost, and from time to time it saves how far it has got.  After a
restart it goes on from where it had got when it last saved; the open transactions are gone.

`Ledger` keeps the account: which items there are, which have been read, which had been read at the
last checkpoint, and where those are that have been handed on.  A transaction that is open when a
checkpoint is taken is `exposed`: if it goes with a restart, its items are not read again.

* `Safe.covered`: an item that has been read is in the table, in an open transaction or in a lost one.
* `Safe.bounded`: each restart may read everything once more.
* `Step.exact`: without a rewind each item is handed on once.

What the account does not promise is that an item is read at most once: a rewind reads again from
the last checkpoint, and an item that was committed since is then handed on twice.  `Step.exact`
says under which steps that does not happen.
-/
import Mathlib

namespace Checkpoints

variable {α : Type*}

/-- The account.  `read` is what has been read and `kept` what had been read at the last
checkpoint, to which a restart goes back; the multisets hold what was handed on, so that an item
handed on twice is counted twice. -/
@[ext]
structure Ledger (α : Type*) where
  all : Multiset α
  read : Multiset α
  kept : Multiset α
  waiting : Multiset α
  exposed : Multiset α
  table : Multiset α
  lost : Multiset α
  restarts : ℕ

/-- What can happen.  Transactions that end may be exposed or not; a checkpoint may leave out this
reader; a restart may find the checkpoint or may not.

A checkpoint exposes what is open: a restart will not read these items again, while the
transactions that hold them may still be lost. -/
inductive Step (l : Ledger α) : Ledger α → Prop
  | grow (all : Multiset α) (h : l.all ≤ all) : Step l { l with all := all }
  | hand (xs : Multiset α) (h : l.read + xs ≤ l.all) :
      Step l { l with read := l.read + xs, waiting := l.waiting + xs }
  | commit (xs ys waiting exposed : Multiset α) (hw : l.waiting = xs + waiting)
      (he : l.exposed = ys + exposed) :
      Step l { l with waiting := waiting, exposed := exposed, table := l.table + (xs + ys) }
  | lose (xs ys waiting exposed : Multiset α) (hw : l.waiting = xs + waiting)
      (he : l.exposed = ys + exposed) :
      Step l { l with waiting := waiting, exposed := exposed, lost := l.lost + (xs + ys) }
  | save (kept : Multiset α) (h : kept = l.read ∨ kept = l.kept) :
      Step l { l with kept := kept, waiting := 0, exposed := l.waiting + l.exposed }
  | restart (read : Multiset α) (h : read = l.kept ∨ read = 0) :
      Step l { l with
        read := read
        waiting := 0
        exposed := 0
        lost := l.lost + l.exposed
        restarts := l.restarts + 1 }

/-- What has been handed on. -/
def Ledger.handed (l : Ledger α) : Multiset α := l.table + (l.waiting + l.exposed) + l.lost

/-- What every step keeps. -/
structure Safe (l : Ledger α) : Prop where
  within : l.read ≤ l.all
  keptWithin : l.kept ≤ l.all
  covered : l.read ≤ l.handed
  saved : l.kept ≤ l.table + l.exposed + l.lost
  bounded : l.handed ≤ l.restarts • l.all + l.read

/-- Transactions that end move their items.  Both kinds, waiting and exposed, are emptied in part
and what they held is in the table or lost; the sum stays. -/
theorem moved {xs ys w e w' e' table lost : Multiset α} (hw : w' = xs + w) (he : e' = ys + e) :
    table + (xs + ys) + (w + e) + lost = table + (w' + e') + lost ∧
      table + (w + e) + (lost + (xs + ys)) = table + (w' + e') + lost := by
  subst hw he
  constructor <;> simp only [add_comm, add_left_comm]

/-- What was in the table, exposed or lost stays so. -/
theorem moved_saved {xs ys e e' table lost : Multiset α} (he : e' = ys + e) :
    table + e' + lost ≤ table + (xs + ys) + e + lost ∧
      table + e' + lost ≤ table + e + (lost + (xs + ys)) := by
  have hmore : table + e' + lost ≤ table + e' + lost + xs := Multiset.le_add_right _ _
  subst he
  constructor
  · refine hmore.trans_eq ?_
    simp only [add_comm, add_left_comm]
  · refine hmore.trans_eq ?_
    simp only [add_comm, add_left_comm]

/-- **Every step keeps the account.**

One case for each kind of step.  The reads and the ends of transactions only move items between the
parts of the account; a checkpoint moves all that waits to the exposed part, so that what it keeps
is accounted for without what waits; a restart drops what waits, counts what is exposed as lost,
and pays for reading again with one more copy of all there is. -/
theorem Safe.step {l l' : Ledger α} (h : Safe l) (hstep : Step l l') : Safe l' := by
  cases hstep with
  | grow all hall =>
    refine ⟨h.within.trans hall, h.keptWithin.trans hall, h.covered, h.saved, h.bounded.trans ?_⟩
    dsimp only
    gcongr
  | hand xs hxs =>
    have hmore : Ledger.handed { l with read := l.read + xs, waiting := l.waiting + xs } =
        l.handed + xs := by
      simp only [Ledger.handed, add_comm, add_left_comm]
    refine ⟨hxs, h.keptWithin, ?_, h.saved, ?_⟩
    · rw [hmore]
      exact add_le_add h.covered le_rfl
    · rw [hmore]
      dsimp only
      rw [← add_assoc]
      exact add_le_add h.bounded le_rfl
  | commit xs ys waiting exposed hw he =>
    have hsame : Ledger.handed { l with
        waiting := waiting
        exposed := exposed
        table := l.table + (xs + ys) } = l.handed := (moved hw he).1
    exact ⟨h.within, h.keptWithin, hsame ▸ h.covered, h.saved.trans (moved_saved he).1,
      hsame ▸ h.bounded⟩
  | lose xs ys waiting exposed hw he =>
    have hsame : Ledger.handed { l with
        waiting := waiting
        exposed := exposed
        lost := l.lost + (xs + ys) } = l.handed := (moved hw he).2
    exact ⟨h.within, h.keptWithin, hsame ▸ h.covered, h.saved.trans (moved_saved he).2,
      hsame ▸ h.bounded⟩
  | save kept hkept =>
    have hsame : Ledger.handed { l with
        kept := kept
        waiting := 0
        exposed := l.waiting + l.exposed } = l.handed := by
      simp only [Ledger.handed, zero_add]
    refine ⟨h.within, ?_, hsame ▸ h.covered, ?_, hsame ▸ h.bounded⟩
    · rcases hkept with rfl | rfl
      · exact h.within
      · exact h.keptWithin
    · rcases hkept with rfl | rfl
      · exact h.covered
      · refine h.saved.trans ?_
        dsimp only
        gcongr
        exact Multiset.le_add_left _ _
  | restart read hread =>
    have hrest : Ledger.handed { l with
        read := read
        waiting := 0
        exposed := 0
        lost := l.lost + l.exposed
        restarts := l.restarts + 1 } = l.table + l.exposed + l.lost := by
      simp only [Ledger.handed, add_zero, add_comm, add_left_comm]
    refine ⟨?_, h.keptWithin, ?_, ?_, ?_⟩
    · rcases hread with rfl | rfl
      · exact h.keptWithin
      · exact Multiset.zero_le _
    · rw [hrest]
      rcases hread with rfl | rfl
      · exact h.saved
      · exact Multiset.zero_le _
    · refine h.saved.trans_eq ?_
      simp only [add_zero, add_comm, add_left_comm]
    · rw [hrest]
      calc l.table + l.exposed + l.lost
        _ ≤ l.handed := by
          rw [Ledger.handed]
          gcongr
          exact Multiset.le_add_left _ _
        _ ≤ l.restarts • l.all + l.read := h.bounded
        _ ≤ l.restarts • l.all + l.all := add_le_add le_rfl h.within
        _ = (l.restarts + 1) • l.all := (succ_nsmul _ _).symm
        _ ≤ (l.restarts + 1) • l.all + read := Multiset.le_add_right _ _

/-- A step does not rewind: a restart finds no open transaction, and all that has been read. -/
def Onward (l l' : Ledger α) : Prop :=
  l.restarts < l'.restarts → l.waiting + l.exposed = 0 ∧ l'.read = l.read

/-- **Without a rewind every item is handed on once.**

Then nothing is open at a restart and the reader goes on from where it was, so that nothing is read
again.  In all other steps each item read is handed on as it is read. -/
theorem Step.exact {l l' : Ledger α} (hstep : Step l l') (hon : Onward l l')
    (h : l.handed = l.read) : l'.handed = l'.read := by
  cases hstep with
  | grow all _ => exact h
  | hand xs _ =>
    dsimp only
    rw [← h]
    simp only [Ledger.handed, add_comm, add_left_comm]
  | commit xs ys waiting exposed hw he => exact (moved hw he).1.trans h
  | lose xs ys waiting exposed hw he => exact (moved hw he).2.trans h
  | save kept _ =>
    dsimp only
    rw [← h]
    simp only [Ledger.handed, zero_add]
  | restart read _ =>
    obtain ⟨hopen, hread⟩ := hon (Nat.lt_succ_self _)
    obtain ⟨hwaiting, hexposed⟩ := add_eq_zero.mp hopen
    dsimp only at hread ⊢
    rw [hread, ← h]
    simp only [Ledger.handed, hwaiting, hexposed, add_zero]

end Checkpoints
