import Noctua.Library.Execution
import Mathlib.Data.List.Nodup
import Mathlib.Data.List.Range

namespace Noctua
open Transition
set_option autoImplicit true

/-- The fields of `unique_mutex_t`; a queued waiter is known by the number of its request. -/
structure UniqueMutex where
  locked : Bool := false
  waiters : List Nat := []
  deriving DecidableEq, Repr

namespace UniqueMutex

def asyncLock (m : UniqueMutex) (r : Nat) : UniqueMutex × Option Nat :=
  if m.locked = false then ({ m with locked := true }, some r)
  else ({ m with waiters := m.waiters ++ [r] }, none)

def unlock (m : UniqueMutex) : UniqueMutex × Option Nat :=
  match m.waiters with
  | [] => ({ m with locked := false }, none)
  | w :: ws => ({ m with waiters := ws }, some w)

end UniqueMutex

/-- A mutex with its clients. `requests` numbers the next `lock()` section; `grants` and
`releases` list what has happened so far, in order. -/
structure UniqueLockSystem where
  mutex : UniqueMutex := {}
  requests : Nat := 0
  unreleased : List Nat := []
  grants : List Nat := []
  releases : List Nat := []
  deriving DecidableEq, Repr

/-- The sections under `waiters_mutex_`: requests, and releases of granted guards. -/
inductive UniqueLockAction where
  | lock
  | unlock (r : Nat)
  deriving DecidableEq, Repr

namespace UniqueLockSystem

def grant (s : UniqueLockSystem) : Option Nat → UniqueLockSystem
  | none => s
  | some r => { s with unreleased := s.unreleased ++ [r], grants := s.grants ++ [r] }

def step (s : UniqueLockSystem) : UniqueLockAction → Option UniqueLockSystem
  | .lock =>
    let (m, g) := s.mutex.asyncLock s.requests
    some ({ s with mutex := m, requests := s.requests + 1 }.grant g)
  | .unlock r =>
    if r ∈ s.unreleased then
      let (m, g) := s.mutex.unlock
      some ({ s with
        mutex := m
        unreleased := s.unreleased.erase r
        releases := s.releases ++ [r] }.grant g)
    else none

/-- What a FIFO lock guarantees. -/
structure FifoLock (s : UniqueLockSystem) : Prop where
  exclusive : s.unreleased.length ≤ 1
  locked : s.mutex.locked = true ↔ s.unreleased ≠ []
  waitersLocked : s.mutex.waiters ≠ [] → s.mutex.locked = true
  grantedOnce : s.grants.Nodup
  inOrder : s.grants <+: List.range s.requests
  noStranding : s.unreleased = [] → s.mutex.waiters = []

/-- The flag says whether there is a holder; the requests are those released, the holder's, and
those waiting, in the order in which they were made. -/
structure Ordered (s : UniqueLockSystem) : Prop where
  holder : s.unreleased.length = s.mutex.locked.toNat
  handover : s.mutex.locked = false → s.mutex.waiters = []
  queue : s.grants ++ s.mutex.waiters = List.range s.requests
  account : s.grants = s.releases ++ s.unreleased

variable {s t : UniqueLockSystem}

theorem Ordered.locked_iff (h : Ordered s) : s.mutex.locked = true ↔ s.unreleased ≠ [] := by
  have hl := h.holder
  cases hm : s.mutex.locked with
  | true =>
    rw [hm] at hl
    exact iff_of_true rfl (List.ne_nil_of_length_pos (by rw [hl]; decide))
  | false =>
    rw [hm] at hl
    exact iff_of_false Bool.false_ne_true (not_not_intro (List.length_eq_zero_iff.1 hl))

theorem Ordered.fifoLock (h : Ordered s) : FifoLock s where
  exclusive := h.holder ▸ Bool.toNat_le _
  locked := h.locked_iff
  waitersLocked hw := by
    cases hm : s.mutex.locked with
    | true => rfl
    | false => exact (hw (h.handover hm)).elim
  grantedOnce := by
    have hn : (s.grants ++ s.mutex.waiters).Nodup := h.queue ▸ List.nodup_range
    exact hn.of_append_left
  inOrder := ⟨s.mutex.waiters, h.queue⟩
  noStranding hu := by
    apply h.handover
    cases hm : s.mutex.locked with
    | true => exact (h.locked_iff.1 hm hu).elim
    | false => rfl

theorem Ordered.lock (h : Ordered s) (hs : s.step .lock = some t) : Ordered t := by
  cases hm : s.mutex.locked with
  | false =>
    simp only [step, UniqueMutex.asyncLock, if_pos hm, grant, Option.some.injEq] at hs
    subst hs
    have hu : s.unreleased = [] := by
      by_contra hne
      exact absurd (h.locked_iff.2 hne) (hm ▸ Bool.false_ne_true)
    have hq := h.queue
    rw [h.handover hm, List.append_nil] at hq
    constructor
    case holder => rw [hu]; rfl
    case handover => exact fun hf => (Bool.noConfusion hf)
    case queue =>
      change s.grants ++ [s.requests] ++ s.mutex.waiters = _
      rw [h.handover hm, List.append_nil, hq, List.range_succ]
    case account =>
      change s.grants ++ [s.requests] = s.releases ++ (s.unreleased ++ [s.requests])
      rw [h.account, List.append_assoc]
  | true =>
    simp only [step, UniqueMutex.asyncLock, hm, Bool.true_eq_false, if_false, grant,
      Option.some.injEq] at hs
    subst hs
    constructor
    case holder => exact h.holder.trans (congrArg Bool.toNat hm)
    case handover => exact fun hf => Bool.noConfusion hf
    case queue =>
      change s.grants ++ (s.mutex.waiters ++ [s.requests]) = _
      rw [← List.append_assoc, h.queue, List.range_succ]
    case account => exact h.account

theorem Ordered.sole_holder (h : Ordered s) (hr : r ∈ s.unreleased) : s.unreleased = [r] := by
  have hl : s.unreleased.length ≤ 1 := h.holder ▸ Bool.toNat_le _
  obtain ⟨x, hx⟩ := List.length_eq_one_iff.1 (Nat.le_antisymm hl (List.length_pos_of_mem hr))
  rw [hx] at hr ⊢
  rw [List.mem_singleton.1 hr]

theorem Ordered.unlock (h : Ordered s) (hs : s.step (.unlock r) = some t) : Ordered t := by
  obtain ⟨hr, hs⟩ := Option.ite_none_right_eq_some.1 hs
  have hu := h.sole_holder hr
  have hlocked := h.locked_iff.2 (List.ne_nil_of_mem hr)
  have herase : s.unreleased.erase r = [] := by rw [hu, List.erase_cons_head]
  have haccount : s.grants = s.releases ++ [r] := h.account.trans (congrArg _ hu)
  cases hw : s.mutex.waiters with
  | nil =>
    simp only [hw, grant, Option.some.injEq] at hs
    subst hs
    constructor
    case holder => exact congrArg List.length herase
    case handover => exact fun _ => rfl
    case queue => exact hw ▸ h.queue
    case account =>
      change s.grants = s.releases ++ [r] ++ s.unreleased.erase r
      rw [herase, List.append_nil, haccount]
  | cons w ws =>
    simp only [hw, grant, Option.some.injEq] at hs
    subst hs
    constructor
    case holder =>
      change (s.unreleased.erase r ++ [w]).length = s.mutex.locked.toNat
      rw [herase, hlocked]
      rfl
    case handover => exact fun hf => Bool.noConfusion (hlocked.symm.trans hf)
    case queue =>
      change s.grants ++ [w] ++ ws = _
      rw [List.append_assoc, List.singleton_append, ← hw, h.queue]
    case account =>
      change s.grants ++ [w] = s.releases ++ [r] ++ (s.unreleased.erase r ++ [w])
      rw [herase, List.nil_append, haccount]

theorem Ordered.step (h : Ordered s) (hs : s.step a = some t) : Ordered t := by
  cases a with
  | lock => exact h.lock hs
  | unlock r => exact h.unlock hs

theorem ordered_init : Ordered {} := ⟨rfl, fun _ => rfl, rfl, rfl⟩

end UniqueLockSystem
end Noctua
