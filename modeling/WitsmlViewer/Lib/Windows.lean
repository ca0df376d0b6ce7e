/-
# A bounded queue that drops its oldest element

A queue of `k` places is offered elements, and its consumer takes the oldest one now and then.  An
offer to a full queue makes room first: the oldest element is dropped.

`Account` keeps, beside what is in the queue, all that was offered to it and how each element that is
no longer in it left.  `Account.Ok` is the invariant: elements leave in the order they were offered,
so what is left is the end of what was offered.

* `Account.Ok.window`: the queue holds the newest elements.
* `Account.Ok.taken_sublist`: what was taken and what can still be taken is part of what was offered,
  in this order and each place at most once.

A queue that drops its oldest element never makes its producer wait, and what a slow consumer
misses is the oldest part of what it has not taken.  Both are in the account: an offer always
succeeds, and a departure is recorded as one of the two kinds.
-/
import Mathlib

namespace Windows

variable {α : Type*}

/-- How an element left: it was taken, or it was dropped to make room. -/
inductive Departure (α : Type*)
  | taken (x : α)
  | dropped (x : α)
deriving DecidableEq

namespace Departure

def item : Departure α → α
  | taken x | dropped x => x

def taken? : Departure α → Option α
  | taken x => some x
  | dropped _ => none

end Departure

inductive Op (α : Type*)
  | offer (x : α)
  | take
deriving DecidableEq

/-- The element that an operation offers. -/
def Op.offered? : Op α → Option α
  | offer x => some x
  | take => none

/-- The queue, and beside it all that was offered and all that left, each in its order. -/
structure Account (α : Type*) where
  offered : List α := []
  departed : List (Departure α) := []
  items : List α := []
deriving DecidableEq

namespace Account

/-- What the consumer has got. -/
def taken (acc : Account α) : List α := acc.departed.filterMap Departure.taken?

/-- One operation on a queue of `k` places; from an empty queue nothing can be taken. -/
def next (k : ℕ) (acc : Account α) : Op α → Option (Account α)
  | .offer x =>
    if acc.items.length < k then
      some { acc with offered := acc.offered ++ [x], items := acc.items ++ [x] }
    else match acc.items with
      | [] => none
      | y :: ys => some {
          offered := acc.offered ++ [x], departed := acc.departed ++ [.dropped y]
          items := ys ++ [x] }
  | .take =>
    match acc.items with
    | [] => none
    | y :: ys => some { acc with departed := acc.departed ++ [.taken y], items := ys }

/-- What an operation does.  An offer appends, and drops the oldest element first if the queue is
full; a taking removes the oldest element, if there is one. -/
theorem next_cases {k : ℕ} {acc acc' : Account α} {op : Op α} (h : acc.next k op = some acc') :
    (∃ x, op = .offer x ∧ acc.items.length < k ∧
      acc' = { acc with offered := acc.offered ++ [x], items := acc.items ++ [x] }) ∨
    (∃ x y ys, op = .offer x ∧ acc.items = y :: ys ∧ k ≤ acc.items.length ∧
      acc' = ⟨acc.offered ++ [x], acc.departed ++ [.dropped y], ys ++ [x]⟩) ∨
    ∃ y ys, op = .take ∧ acc.items = y :: ys ∧
      acc' = { acc with departed := acc.departed ++ [.taken y], items := ys } := by
  cases op with
  | offer x =>
    simp only [next] at h
    split at h
    · rename_i hroom
      exact Or.inl ⟨x, rfl, hroom, (Option.some.inj h).symm⟩
    · rename_i hfull
      split at h
      · cases h
      · rename_i y ys hitems
        exact Or.inr (Or.inl ⟨x, y, ys, rfl, hitems, not_lt.mp hfull, (Option.some.inj h).symm⟩)
  | take =>
    simp only [next] at h
    split at h
    · cases h
    · rename_i y ys hitems
      exact Or.inr (Or.inr ⟨y, ys, rfl, hitems, (Option.some.inj h).symm⟩)

/-- Elements leave in the order they were offered, and there are never more than `k`. -/
structure Ok (k : ℕ) (acc : Account α) : Prop where
  balanced : acc.offered = acc.departed.map Departure.item ++ acc.items
  bounded : acc.items.length ≤ k

theorem ok_empty (k : ℕ) : ({} : Account α).Ok k := ⟨rfl, Nat.zero_le k⟩

/-- **Every operation keeps the account.**

An offer to a full queue drops one element and adds one, so that the size stays; in all cases what
left and what is there make up what was offered, in order. -/
theorem Ok.next {k : ℕ} {acc acc' : Account α} {op : Op α} (h : acc.Ok k)
    (hnext : acc.next k op = some acc') : acc'.Ok k := by
  obtain ⟨hbalanced, hbounded⟩ := h
  obtain ⟨x, -, hroom, rfl⟩ | ⟨x, y, ys, -, hitems, -, rfl⟩ | ⟨y, ys, -, hitems, rfl⟩ :=
    next_cases hnext
  · exact ⟨by simp [hbalanced], by simpa using hroom⟩
  · rw [hitems] at hbalanced hbounded
    exact ⟨by simp [hbalanced, Departure.item], by simpa using hbounded⟩
  · rw [hitems] at hbalanced hbounded
    exact ⟨by simp [hbalanced, Departure.item], (Nat.le_succ _).trans hbounded⟩

/-- What is offered is what the operations offer.  A dropped element was offered too. -/
theorem offered_next {k : ℕ} {acc acc' : Account α} {op : Op α}
    (hnext : acc.next k op = some acc') : acc'.offered = acc.offered ++ op.offered?.toList := by
  obtain ⟨x, rfl, -, rfl⟩ | ⟨x, y, ys, rfl, -, -, rfl⟩ | ⟨y, ys, rfl, -, rfl⟩ := next_cases hnext
  · rfl
  · rfl
  · exact (List.append_nil _).symm

/-- **Runs keep the account**, and offer what their operations offer.  The induction is on the
operations, from the first one on. -/
theorem Ok.run {k : ℕ} {acc acc' : Account α} {ops : List (Op α)} (h : acc.Ok k)
    (hrun : ops.foldlM (Account.next k) acc = some acc') :
    acc'.Ok k ∧ acc'.offered = acc.offered ++ ops.filterMap Op.offered? := by
  induction ops generalizing acc with
  | nil =>
    obtain rfl := Option.some.inj hrun
    exact ⟨h, (List.append_nil _).symm⟩
  | cons op ops ih =>
    obtain ⟨acc₁, hnext, hrun⟩ := Option.bind_eq_some_iff.mp hrun
    obtain ⟨hok, hoffered⟩ := ih (h.next hnext) hrun
    refine ⟨hok, ?_⟩
    rw [hoffered, offered_next hnext, List.append_assoc]
    cases op <;> rfl

namespace Ok

variable {k : ℕ} {acc : Account α}

/-- **The queue holds the newest elements.**  It is a suffix of what was offered, so that there is
no gap in it and nothing newer is missing. -/
theorem window (h : acc.Ok k) : acc.items <:+ acc.offered :=
  h.balanced ▸ List.suffix_append _ _

/-- **What is taken comes in order and never twice.**

A sublist and not a segment: dropped elements leave gaps, but only where the consumer was too
slow. -/
theorem taken_sublist (h : acc.Ok k) : (acc.taken ++ acc.items).Sublist acc.offered := by
  rw [h.balanced]
  refine List.Sublist.append ?_ (List.Sublist.refl _)
  have htaken : ∀ ds : List (Departure α),
      (ds.filterMap Departure.taken?).Sublist (ds.map Departure.item) := by
    intro ds
    induction ds with
    | nil => exact List.Sublist.refl _
    | cons d ds ih =>
      cases d with
      | taken x => exact ih.cons_cons x
      | dropped x => exact ih.cons x
  exact htaken acc.departed

end Ok

end Account

end Windows
