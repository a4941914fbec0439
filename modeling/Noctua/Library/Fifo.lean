import Noctua.Library.Linearization

namespace Fifo
open Linearization
set_option autoImplicit true

/-- The operations of a FIFO list whose head is dropped only by naming its value. -/
inductive Op (α : Type) where
  | push (a : α)
  | read
  | remove (a : α)

inductive Res (α : Type) where
  | pushed
  | front (a : Option α)
  | removed (taken : Bool)

def apply [DecidableEq α] (q : List α) : Op α → List α × Res α
  | .push a => (q ++ [a], .pushed)
  | .read => (q, .front q.head?)
  | .remove a => if q.head? = some a then (q.tail, .removed true) else (q, .removed false)

def object (α : Type) [DecidableEq α] : SeqObject (List α) (Op α) (Res α) := ⟨[], apply⟩

def pushedBy (c : Completed (Op α) (Res α)) : Option α :=
  match c.op with
  | .push a => some a
  | _ => none

def removedBy (c : Completed (Op α) (Res α)) : Option α :=
  match c.op, c.result with
  | .remove a, .removed true => some a
  | _, _ => none

theorem apply_balance [DecidableEq α] {q u : List α} {c : Completed (Op α) (Res α)}
    (h : apply q c.op = (u, c.result)) :
    q ++ [c].filterMap pushedBy = [c].filterMap removedBy ++ u := by
  obtain ⟨id, op, r⟩ := c
  cases op with
  | push a =>
    cases h
    rfl
  | read =>
    cases h
    exact List.append_nil q
  | remove a =>
    by_cases hh : q.head? = some a
    · simp only [apply, if_pos hh, Prod.mk.injEq] at h
      obtain ⟨rfl, rfl⟩ := h
      cases q with
      | nil => cases hh
      | cons b q => cases hh; exact List.append_nil _
    · simp only [apply, if_neg hh, Prod.mk.injEq] at h
      obtain ⟨rfl, rfl⟩ := h
      exact List.append_nil q

/-- Nothing is lost, duplicated or reordered: the pushed values are the removed ones followed
by the contents. -/
theorem pushed_eq_removed_append [DecidableEq α] {cs : List (Completed (Op α) (Res α))}
    (h : Legal (object α) [] cs q) :
    cs.filterMap pushedBy = cs.filterMap removedBy ++ q := by
  induction h with
  | nil => rfl
  | snoc hl he ih =>
    rw [List.filterMap_append, List.filterMap_append, ih, List.append_assoc,
      List.append_assoc, apply_balance he]

end Fifo
