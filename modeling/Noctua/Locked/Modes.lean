import Noctua.Library.Attendance
import Noctua.LockAccounting
import Noctua.UniqueMutex

namespace Noctua
open Transition Attendance
set_option autoImplicit true

inductive LockMode where
  | read
  | write
  deriving DecidableEq, Repr

def LockMode.request : LockMode → LockAction
  | .read => .lockShared
  | .write => .lock

def LockMode.release (r : Nat) : LockMode → LockAction
  | .read => .unlockShared r
  | .write => .unlock r

namespace LockSystem
variable {s t : LockSystem} {mode other : LockMode} {r : Nat}

def waiters (s : LockSystem) : LockMode → List Nat
  | .read => s.mutex.sharedWaiters
  | .write => s.mutex.uniqueWaiters

def grants (s : LockSystem) : LockMode → List Nat
  | .read => s.readGrants
  | .write => s.writeGrants

theorem mem_requests (h : Ledgered s) (hr : r ∈ s.waiters mode ∨ r ∈ s.grants mode) :
    r < s.requests := by
  apply List.mem_range.1
  apply h.states.subset
  cases mode <;> simp only [waiters, grants] at hr <;>
    simp only [waiting, unreleased, List.mem_append] <;> tauto

theorem grants_nodup (h : Ledgered s) (mode : LockMode) :
    (s.grants mode).Nodup ∧ ∀ r ∈ s.grants mode, r ∉ s.waiters mode := by
  have hn := h.states.nodup_iff.2 List.nodup_range
  have hu := hn.of_append_right.of_append_left
  have hd := List.disjoint_of_nodup_append hn
  cases mode with
  | read =>
    refine ⟨hu.of_append_right, fun r hr hw => ?_⟩
    exact hd (List.mem_append_right _ hw) (List.mem_append_left _ (List.mem_append_right _ hr))
  | write =>
    refine ⟨hu.of_append_left, fun r hr hw => ?_⟩
    exact hd (List.mem_append_left _ hw) (List.mem_append_left _ (List.mem_append_left _ hr))

theorem arrival (h : Ledgered s) (hs : s.step mode.request = some t) :
    Arrival s.requests (s.waiters mode) (s.grants mode) (t.waiters mode) (t.grants mode) := by
  have hf : ¬ (s.requests ∈ s.waiters mode ∨ s.requests ∈ s.grants mode) :=
    fun hr => absurd (mem_requests h hr) (Nat.lt_irrefl _)
  cases mode with
  | read =>
    cases step_section hs with
    | sharedFree =>
      refine ⟨hf, fun x => ?_, fun x hx => List.mem_cons_of_mem _ hx⟩
      change x ∈ s.mutex.sharedWaiters ∨ x ∈ s.requests :: s.readGrants ↔ _
      rw [List.mem_cons, or_left_comm]
      rfl
    | sharedQueued =>
      refine ⟨hf, fun x => ?_, fun x hx => hx⟩
      change x ∈ s.mutex.sharedWaiters ++ [s.requests] ∨ x ∈ s.readGrants ↔ _
      rw [List.mem_append, List.mem_singleton, or_comm (b := x = _), or_assoc]
      rfl
  | write =>
    cases step_section hs with
    | lockFree =>
      refine ⟨hf, fun x => ?_, fun x hx => List.mem_cons_of_mem _ hx⟩
      change x ∈ s.mutex.uniqueWaiters ∨ x ∈ s.requests :: s.writeGrants ↔ _
      rw [List.mem_cons, or_left_comm]
      rfl
    | lockQueued =>
      refine ⟨hf, fun x => ?_, fun x hx => hx⟩
      change x ∈ s.mutex.uniqueWaiters ++ [s.requests] ∨ x ∈ s.writeGrants ↔ _
      rw [List.mem_append, List.mem_singleton, or_comm (b := x = _), or_assoc]
      rfl

theorem request_other (hs : s.step mode.request = some t) (hm : other ≠ mode) :
    t.waiters other = s.waiters other ∧ t.grants other = s.grants other := by
  cases mode with
  | read =>
    cases other with
    | read => exact (hm rfl).elim
    | write => cases step_section hs <;> exact ⟨rfl, rfl⟩
  | write =>
    cases other with
    | read => cases step_section hs <;> exact ⟨rfl, rfl⟩
    | write => exact (hm rfl).elim

theorem release_grant (hs : s.step (mode.release r) = some t) : r ∈ s.grants mode := by
  cases mode <;> cases step_section hs <;> assumption

theorem departure (h : Ledgered s) (hs : s.step (mode.release r) = some t) :
    Departure r (s.waiters mode) (s.grants mode) (t.waiters mode) (t.grants mode) := by
  obtain ⟨hn, hw⟩ := grants_nodup h mode
  apply departure_of hn hw (release_grant hs)
  cases mode with
  | read => cases step_section hs <;> exact .refl _ _
  | write =>
    cases step_section hs with
    | unlockToWriter _ hu =>
      rw [waiters, hu]
      exact handover_cons
    | unlockToReader => exact .refl _ _
    | unlockFree => exact .refl _ _

theorem release_other (hs : s.step (mode.release r) = some t) (hm : other ≠ mode) :
    Handover (s.waiters other) (s.grants other) (t.waiters other) (t.grants other) := by
  cases mode with
  | read =>
    cases other with
    | read => exact (hm rfl).elim
    | write =>
      cases step_section hs with
      | unlockSharedToWriter _ _ hu =>
        rw [waiters, hu]
        exact handover_cons
      | unlockSharedKept => exact .refl _ _
  | write =>
    cases other with
    | read =>
      cases step_section hs with
      | unlockToWriter => exact .refl _ _
      | unlockToReader _ _ hq =>
        rw [waiters, hq]
        exact handover_cons
      | unlockFree => exact .refl _ _
    | write => exact (hm rfl).elim

theorem wake_handover (hs : s.step .wake = some t) (mode : LockMode) :
    Handover (s.waiters mode) (s.grants mode) (t.waiters mode) (t.grants mode) := by
  cases step_section hs with
  | wakeReader _ hq =>
    cases mode with
    | read =>
      rw [waiters, hq]
      exact handover_cons
    | write => exact .refl _ _
  | wakeDone => cases mode <;> exact .refl _ _

theorem request_total (s : LockSystem) (mode : LockMode) : ∃ t, s.step mode.request = some t := by
  cases mode <;> exact ⟨_, rfl⟩

theorem release_total (hr : r ∈ s.grants mode) : ∃ t, s.step (mode.release r) = some t := by
  cases mode with
  | read => exact ⟨_, if_pos hr⟩
  | write =>
    change ∃ t, s.step (.unlock r) = some t
    rw [step, if_pos (show r ∈ s.writeGrants from hr)]
    dsimp only
    split <;> exact ⟨_, rfl⟩

theorem wake_total (hw : 0 < s.waking) : ∃ t, s.step .wake = some t := by
  rw [step, if_pos hw]
  dsimp only
  split <;> exact ⟨_, rfl⟩

/-- With no `unlock` in its loop, whoever waits is waiting for a grant. -/
theorem Queued.grant_of_waiter (h : Queued s) (hw : s.waking = 0) (hr : r ∈ s.waiters mode) :
    ∃ mode x, x ∈ s.grants mode := by
  have held (hh : s.writeGrants ≠ [] ∨ s.readGrants ≠ []) : ∃ mode x, x ∈ s.grants mode := by
    obtain hh | hh := hh
    · exact ⟨.write, List.exists_mem_of_ne_nil _ hh⟩
    · exact ⟨.read, List.exists_mem_of_ne_nil _ hh⟩
  apply held
  cases mode with
  | read =>
    obtain hh | hu | hk := h.readersHeld (List.ne_nil_of_mem hr)
    · exact .inl hh
    · exact h.writersHeld hu
    · exact absurd hw (Nat.pos_iff_ne_zero.1 hk)
  | write => exact h.writersHeld (List.ne_nil_of_mem hr)

end LockSystem

namespace UniqueLockSystem
variable {s t : UniqueLockSystem}

/-- Everything that a section under `waiters_mutex_` can do. -/
inductive Section (s : UniqueLockSystem) : UniqueLockAction → UniqueLockSystem → Prop where
  | lockFree (hm : s.mutex.locked = false) :
      Section s .lock { s with
        mutex := { s.mutex with locked := true }
        requests := s.requests + 1
        unreleased := s.unreleased ++ [s.requests]
        grants := s.grants ++ [s.requests] }
  | lockQueued (hm : s.mutex.locked = true) :
      Section s .lock { s with
        mutex := { s.mutex with waiters := s.mutex.waiters ++ [s.requests] }
        requests := s.requests + 1 }
  | unlockFree (hr : r ∈ s.unreleased) (hw : s.mutex.waiters = []) :
      Section s (.unlock r) { s with
        mutex := { s.mutex with locked := false }
        unreleased := s.unreleased.erase r
        releases := s.releases ++ [r] }
  | unlockTo (hr : r ∈ s.unreleased) (hw : s.mutex.waiters = w :: ws) :
      Section s (.unlock r) { s with
        mutex := { s.mutex with waiters := ws }
        unreleased := s.unreleased.erase r ++ [w]
        grants := s.grants ++ [w]
        releases := s.releases ++ [r] }

theorem step_section (hs : s.step a = some t) : Section s a t := by
  cases a with
  | lock =>
    cases hm : s.mutex.locked with
    | false =>
      simp only [step, UniqueMutex.asyncLock, if_pos hm, grant, Option.some.injEq] at hs
      subst hs
      exact .lockFree hm
    | true =>
      have hf : ¬ s.mutex.locked = false := fun hf => Bool.noConfusion (hm.symm.trans hf)
      simp only [step, UniqueMutex.asyncLock, if_neg hf, grant, Option.some.injEq] at hs
      subst hs
      exact .lockQueued hm
  | unlock r =>
    obtain ⟨hr, hs⟩ := Option.ite_none_right_eq_some.1 hs
    cases hw : s.mutex.waiters with
    | nil =>
      simp only [hw, grant, Option.some.injEq] at hs
      subst hs
      exact hw ▸ .unlockFree hr hw
    | cons w ws =>
      simp only [hw, grant, Option.some.injEq] at hs
      subst hs
      exact .unlockTo hr hw

theorem Ordered.requests_nodup (h : Ordered s) :
    (s.releases ++ s.unreleased ++ s.mutex.waiters).Nodup := by
  rw [← h.account, h.queue]
  exact List.nodup_range

theorem Ordered.mem_requests (h : Ordered s) (hr : r ∈ s.mutex.waiters ∨ r ∈ s.unreleased) :
    r < s.requests := by
  rw [← List.mem_range, ← h.queue, h.account]
  obtain hr | hr := hr
  · exact List.mem_append_right _ hr
  · exact List.mem_append_left _ (List.mem_append_right _ hr)

theorem Ordered.arrival (h : Ordered s) (hs : s.step .lock = some t) :
    Arrival s.requests s.mutex.waiters s.unreleased t.mutex.waiters t.unreleased := by
  have hf : ¬ (s.requests ∈ s.mutex.waiters ∨ s.requests ∈ s.unreleased) :=
    fun hr => absurd (h.mem_requests hr) (Nat.lt_irrefl _)
  cases step_section hs with
  | lockFree =>
    refine ⟨hf, fun x => ?_, fun x hx => List.mem_append_left _ hx⟩
    rw [List.mem_append, List.mem_singleton, or_comm (b := x = _), or_left_comm]
  | lockQueued =>
    refine ⟨hf, fun x => ?_, fun x hx => hx⟩
    rw [List.mem_append, List.mem_singleton, or_comm (b := x = _), or_assoc]

theorem Ordered.departure (h : Ordered s) (hs : s.step (.unlock r) = some t) :
    Departure r s.mutex.waiters s.unreleased t.mutex.waiters t.unreleased := by
  have hn := h.requests_nodup
  have hd : ∀ x ∈ s.unreleased, x ∉ s.mutex.waiters := fun x hx =>
    List.disjoint_of_nodup_append hn (List.mem_append_right _ hx)
  apply departure_of hn.of_append_left.of_append_right hd
  · cases step_section hs <;> assumption
  · cases step_section hs with
    | unlockFree => exact .refl _ _
    | unlockTo hr hw =>
      rw [hw, h.sole_holder hr, List.erase_cons_head]
      exact handover_cons

end UniqueLockSystem
end Noctua
