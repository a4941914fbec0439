import Noctua.MutualExclusion
import Noctua.Library.Ledger
import Mathlib.Data.List.Range

namespace Noctua
open Transition
set_option autoImplicit true

namespace LockEvent

def releasedRequest : LockEvent → Option Nat
  | .released r => some r
  | _ => none

def grantedRequest : LockEvent → Option Nat
  | .granted (.write r) | .granted (.read r) => some r
  | _ => none

end LockEvent

namespace LockSystem
variable {s t : LockSystem}

def waiting (s : LockSystem) : List Nat := s.mutex.uniqueWaiters ++ s.mutex.sharedWaiters

def unreleased (s : LockSystem) : List Nat := s.writeGrants ++ s.readGrants

def released (s : LockSystem) : List Nat := s.history.filterMap LockEvent.releasedRequest

def granted (s : LockSystem) : List Nat := s.history.filterMap LockEvent.grantedRequest

/-- The counters are exact, every request is in exactly one of its three states and granted at
most once, and nobody waits once nothing is held and no `unlock` is in its loop. -/
structure Accounts (s : LockSystem) : Prop where
  writersWaiting : s.mutex.writersWaiting = s.mutex.uniqueWaiters.length
  readerCount : s.mutex.readerCount = s.readGrants.length
  noUnderflow : ∀ r ∈ s.readGrants, 0 < s.mutex.readerCount
  oneState : (s.waiting ++ (s.unreleased ++ s.released)).Perm (List.range s.requests)
  grantedOnce : s.granted.Nodup
  noStranding : s.unreleased = [] → s.waking = 0 → s.waiting = []

section
variable (s : LockSystem) (m : SharedMutex) (e : LockEvent) (r : Nat)

theorem released_record : (s.record e).released = s.released ++ e.releasedRequest.toList :=
  record_logged s e LockEvent.releasedRequest

theorem granted_record : (s.record e).granted = s.granted ++ e.grantedRequest.toList :=
  record_logged s e LockEvent.grantedRequest

@[simp] theorem requested_released :
    (s.requested m e).released = s.released ++ e.releasedRequest.toList := released_record _ e

@[simp] theorem requested_granted :
    (s.requested m e).granted = s.granted ++ e.grantedRequest.toList := granted_record _ e

@[simp] theorem releasedWrite_released :
    (s.releasedWrite m r).released = s.released ++ [r] := released_record _ (.released r)

@[simp] theorem releasedWrite_granted : (s.releasedWrite m r).granted = s.granted :=
  (granted_record _ (.released r)).trans (List.append_nil _)

@[simp] theorem releasedRead_released :
    (s.releasedRead m r).released = s.released ++ [r] := released_record _ (.released r)

@[simp] theorem releasedRead_granted : (s.releasedRead m r).granted = s.granted :=
  (granted_record _ (.released r)).trans (List.append_nil _)

@[simp] theorem grant_released (g : Grant) : (s.grant g).released = s.released := by
  cases g with
  | none => rfl
  | write r => exact (released_record _ (.granted (.write r))).trans (List.append_nil _)
  | read r => exact (released_record _ (.granted (.read r))).trans (List.append_nil _)

@[simp] theorem grantWrite_granted : (s.grant (.write r)).granted = s.granted ++ [r] :=
  granted_record _ (.granted (.write r))

@[simp] theorem grantRead_granted : (s.grant (.read r)).granted = s.granted ++ [r] :=
  granted_record _ (.granted (.read r))

end

/-- The requests as a ledger. -/
def Ledgered (s : LockSystem) : Prop :=
  Ledger.Balanced (List.range s.requests) s.waiting s.unreleased s.released s.granted

theorem ledgered_of (hr : t.released = rs) (hg : t.granted = gs)
    (h : Ledger.Balanced (List.range t.requests) t.waiting t.unreleased rs gs) : Ledgered t := by
  subst hr hg
  exact h

theorem Ledgered.enqueue (h : Ledgered s) (he : e.releasedRequest = none)
    (hg : e.grantedRequest = none)
    (hm : (m.uniqueWaiters ++ m.sharedWaiters).Perm (s.requests :: s.waiting)) :
    Ledgered (s.requested m e) := by
  have hr' : (s.requested m e).released = s.released := by
    rw [requested_released, he, Option.toList_none, List.append_nil]
  have hg' : (s.requested m e).granted = s.granted := by
    rw [requested_granted, hg, Option.toList_none, List.append_nil]
  exact ledgered_of hr' hg' (List.range_succ ▸ Ledger.Balanced.enqueue h hm)

theorem Ledgered.admit (h : Ledgered s) (hr : t.released = s.released)
    (hg : t.granted = s.granted ++ [s.requests]) (hn : t.requests = s.requests + 1)
    (hw : t.waiting = s.waiting) (hu : t.unreleased.Perm (s.requests :: s.unreleased)) :
    Ledgered t := by
  apply ledgered_of hr hg
  rw [hn, hw, List.range_succ]
  exact Ledger.Balanced.admit h hu

theorem Ledgered.handover (h : Ledgered s) (hr : t.released = s.released ++ [r])
    (hg : t.granted = s.granted ++ [w]) (hn : t.requests = s.requests)
    (hw : s.waiting.Perm (w :: t.waiting)) (hu : s.unreleased.Perm (r :: us))
    (hu' : t.unreleased.Perm (w :: us)) : Ledgered t := by
  apply ledgered_of hr hg
  rw [hn]
  exact (Ledger.Balanced.release h hu).grant hw hu'

theorem unreleased_write (hr : r ∈ s.writeGrants) :
    s.unreleased.Perm (r :: (s.writeGrants.erase r ++ s.readGrants)) :=
  (List.perm_cons_erase hr).append_right s.readGrants

theorem unreleased_read (hr : r ∈ s.readGrants) :
    s.unreleased.Perm (r :: (s.writeGrants ++ s.readGrants.erase r)) :=
  ((List.perm_cons_erase hr).append_left s.writeGrants).trans List.perm_middle

theorem Ledgered.step (h : Ledgered s) (hs : s.step a = some t) : Ledgered t := by
  cases step_section hs with
  | lockFree =>
    exact h.admit (by simp [LockEvent.releasedRequest]) (by simp [LockEvent.grantedRequest])
      rfl rfl (.refl _)
  | lockQueued =>
    apply h.enqueue rfl rfl
    rw [List.append_assoc]
    exact List.perm_middle
  | sharedFree =>
    exact h.admit (by simp [LockEvent.releasedRequest]) (by simp [LockEvent.grantedRequest])
      rfl rfl List.perm_middle
  | sharedQueued =>
    apply h.enqueue rfl rfl
    rw [← List.append_assoc]
    exact List.perm_append_singleton _ _
  | unlockToWriter hr hu =>
    refine h.handover (by simp) (by simp) rfl ?_ (unreleased_write hr) (.refl _)
    rw [waiting, hu]
    exact .refl _
  | unlockToReader hr hu hq =>
    refine h.handover ((grant_released ..).trans (releasedWrite_released ..))
      ((grantRead_granted ..).trans ?_) rfl ?_ (unreleased_write hr) List.perm_middle
    · exact congrArg (· ++ _) (releasedWrite_granted ..)
    rw [waiting, hu, hq]
    exact .of_eq (congrArg (_ :: · ++ _) hu.symm)
  | unlockFree hr =>
    exact ledgered_of (releasedWrite_released ..) (releasedWrite_granted ..)
      (Ledger.Balanced.release h (unreleased_write hr))
  | unlockSharedToWriter hr hz hu =>
    refine h.handover (by simp) (by simp) rfl ?_ (unreleased_read hr) (.refl _)
    rw [waiting, hu]
    exact .refl _
  | unlockSharedKept hr =>
    exact ledgered_of (releasedRead_released ..) (releasedRead_granted ..)
      (Ledger.Balanced.release h (unreleased_read hr))
  | wakeReader hw hq =>
    apply ledgered_of (grant_released ..) (grantRead_granted ..)
    apply Ledger.Balanced.grant h _ List.perm_middle
    rw [waiting, hq]
    exact List.perm_middle
  | wakeDone => exact h

/-- A waiting writer waits for some holder, and a waiting reader for a writer or for an `unlock`
in its loop. -/
structure Queued (s : LockSystem) : Prop where
  writers : s.mutex.writersWaiting = s.mutex.uniqueWaiters.length
  readers : s.mutex.readerCount = s.readGrants.length
  active : s.mutex.writerActive = true → s.writeGrants ≠ []
  writersHeld : s.mutex.uniqueWaiters ≠ [] → s.writeGrants ≠ [] ∨ s.readGrants ≠ []
  readersHeld : s.mutex.sharedWaiters ≠ [] →
    s.writeGrants ≠ [] ∨ s.mutex.uniqueWaiters ≠ [] ∨ 0 < s.waking

theorem Queued.toWriter (h : Queued s) (hu : s.mutex.uniqueWaiters = w :: ws) :
    decrement s.mutex.writersWaiting = ws.length := by
  rw [h.writers, hu, List.length_cons, decrement_succ]

theorem Queued.decrement_readers (h : Queued s) (hr : r ∈ s.readGrants) :
    decrement s.mutex.readerCount = (s.readGrants.erase r).length := by
  rw [h.readers, decrement_length hr]

theorem queued_grant_write (hw : s.mutex.writersWaiting = s.mutex.uniqueWaiters.length)
    (hr : s.mutex.readerCount = s.readGrants.length) : Queued (s.grant (.write r)) where
  writers := hw
  readers := hr
  active _ := List.cons_ne_nil _ _
  writersHeld _ := .inl (List.cons_ne_nil _ _)
  readersHeld _ := .inl (List.cons_ne_nil _ _)

theorem queued_grant_read (hw : s.mutex.writersWaiting = s.mutex.uniqueWaiters.length)
    (hr : s.mutex.readerCount = s.readGrants.length + 1)
    (ha : s.mutex.writerActive = true → s.writeGrants ≠ [])
    (hq : s.mutex.sharedWaiters ≠ [] →
      s.writeGrants ≠ [] ∨ s.mutex.uniqueWaiters ≠ [] ∨ 0 < s.waking) :
    Queued (s.grant (.read r)) where
  writers := hw
  readers := hr
  active := ha
  writersHeld _ := .inr (List.cons_ne_nil _ _)
  readersHeld := hq

theorem Queued.step (h : Queued s) (hs : s.step a = some t) : Queued t := by
  cases step_section hs with
  | lockFree => exact queued_grant_write h.writers h.readers
  | lockQueued hf =>
    constructor
    case writers =>
      change s.mutex.writersWaiting + 1 = (s.mutex.uniqueWaiters ++ [_]).length
      rw [h.writers, List.length_append, List.length_singleton]
    case readers => exact h.readers
    case active => exact h.active
    case writersHeld =>
      intro _
      apply hf.imp h.active
      intro hr hn
      exact hr (h.readers.trans (congrArg List.length hn))
    case readersHeld => exact fun _ => .inr (.inl (by simp [requested]))
  | sharedFree =>
    exact queued_grant_read h.writers (congrArg (· + 1) h.readers) h.active h.readersHeld
  | sharedQueued hf =>
    refine ⟨h.writers, h.readers, h.active, h.writersHeld, fun _ => hf.imp h.active ?_⟩
    intro hw
    exact .inl fun hn => hw (h.writers.trans (congrArg List.length hn))
  | unlockToWriter hr hu => exact queued_grant_write (h.toWriter hu) h.readers
  | unlockToReader hr hu hq =>
    exact queued_grant_read h.writers (congrArg (· + 1) h.readers)
      (fun ha => Bool.noConfusion ha) fun _ => .inr (.inr (Nat.succ_pos _))
  | unlockFree hr hu hq =>
    exact ⟨h.writers, h.readers, fun ha => Bool.noConfusion ha, fun hn => (hn hu).elim,
      fun hn => (hn hq).elim⟩
  | unlockSharedToWriter hr hz hu =>
    exact queued_grant_write (h.toWriter hu) (hz.symm.trans (h.decrement_readers hr))
  | unlockSharedKept hr hk =>
    refine ⟨h.writers, h.decrement_readers hr, h.active, fun hu => ?_, h.readersHeld⟩
    apply Or.inr
    intro hn
    have hz := (h.decrement_readers hr).trans (congrArg List.length hn)
    exact hk.elim (fun hne => hne hz) hu
  | wakeReader hw =>
    exact queued_grant_read h.writers (congrArg (· + 1) h.readers) h.active
      fun _ => .inr (.inr hw)
  | wakeDone hw hq =>
    exact ⟨h.writers, h.readers, h.active, h.writersHeld, fun hn => (hn hq).elim⟩

theorem accounts_of (hq : Queued s) (hl : Ledgered s) : Accounts s where
  writersWaiting := hq.writers
  readerCount := hq.readers
  noUnderflow r hr := hq.readers ▸ List.length_pos_of_mem hr
  oneState := hl.states
  grantedOnce := hl.grantedOnce List.nodup_range
  noStranding hn hw := by
    obtain ⟨hwrite, hread⟩ := List.append_eq_nil_iff.1 hn
    have hu : s.mutex.uniqueWaiters = [] := by
      by_contra hne
      exact (hq.writersHeld hne).elim (· hwrite) (· hread)
    have hs : s.mutex.sharedWaiters = [] := by
      by_contra hne
      obtain hne | hne | hpos := hq.readersHeld hne
      · exact hne hwrite
      · exact hne hu
      · exact absurd hw (Nat.pos_iff_ne_zero.1 hpos)
    rw [waiting, hu, hs, List.append_nil]

theorem queued_init : Queued {} :=
  ⟨rfl, rfl, fun ha => Bool.noConfusion ha, fun hn => (hn rfl).elim, fun hn => (hn rfl).elim⟩

/-- The counters of the mutex are exact and no waiter is stranded, in every run. -/
theorem accounts (acts : List LockAction) : Throughout step Accounts {} acts := by
  apply Throughout.mono (I := fun s => Queued s ∧ Ledgered s) _ fun _ h => accounts_of h.1 h.2
  exact throughout_of_allSteps (fun _ _ _ h _ hs => ⟨h.1.step hs, h.2.step hs⟩)
    ⟨queued_init, Ledger.balanced_nil⟩ (allSteps_true _ acts)

end LockSystem
end Noctua
