import Noctua.SharedMutex

namespace Noctua
open Transition
set_option autoImplicit true

theorem decrement_succ (n : Nat) : decrement (n + 1) = n := if_neg (Nat.succ_ne_zero n)

theorem decrement_length {r : Nat} {rs : List Nat} (hr : r ∈ rs) :
    decrement rs.length = (rs.erase r).length := by
  rw [List.length_erase_of_mem hr, decrement, if_neg (List.length_pos_of_mem hr).ne']

namespace SharedMutex
variable {m : SharedMutex}

theorem wakeReader_nil (hq : m.sharedWaiters = []) : m.wakeReader = (m, .none) := by
  simp only [wakeReader, hq]

theorem wakeReader_cons (hq : m.sharedWaiters = q :: qs) : m.wakeReader =
    ({ m with sharedWaiters := qs, readerCount := m.readerCount + 1 }, .read q) := by
  simp only [wakeReader, hq]

theorem unlock_toWriter (hu : m.uniqueWaiters = w :: ws) : m.unlock =
    ({ m with
      uniqueWaiters := ws
      writersWaiting := decrement m.writersWaiting
      writerActive := true }, .write w) := by
  simp only [unlock, hu, wakeWriter]

theorem unlock_toReader (hu : m.uniqueWaiters = []) (hq : m.sharedWaiters = q :: qs) :
    m.unlock =
      ({ m with
        writerActive := false
        sharedWaiters := qs
        readerCount := m.readerCount + 1 }, .read q) := by
  rw [unlock]
  split
  · rename_i hc
    cases hu.symm.trans hc
  · exact wakeReader_cons hq

theorem unlock_free (hu : m.uniqueWaiters = []) (hq : m.sharedWaiters = []) :
    m.unlock = ({ m with writerActive := false }, .none) := by
  rw [unlock]
  split
  · rename_i hc
    cases hu.symm.trans hc
  · exact wakeReader_nil hq

theorem unlockShared_toWriter (hz : decrement m.readerCount = 0)
    (hu : m.uniqueWaiters = w :: ws) : m.unlockShared =
      ({ m with
        readerCount := 0
        uniqueWaiters := ws
        writersWaiting := decrement m.writersWaiting
        writerActive := true }, .write w) := by
  simp only [unlockShared, hz, hu, if_true, wakeWriter]

theorem unlockShared_kept (hk : decrement m.readerCount ≠ 0 ∨ m.uniqueWaiters = []) :
    m.unlockShared = ({ m with readerCount := decrement m.readerCount }, .none) := by
  rw [unlockShared]
  split
  · rename_i hz
    split
    · rename_i hc
      cases (hk.resolve_left (not_not_intro hz)).symm.trans hc
    · rfl
  · rfl

end SharedMutex

namespace LockSystem
variable {s t : LockSystem}

@[simp] theorem record_mutex (s : LockSystem) (e : LockEvent) : (s.record e).mutex = s.mutex := rfl

@[simp] theorem record_writeGrants (s : LockSystem) (e : LockEvent) :
    (s.record e).writeGrants = s.writeGrants := rfl

@[simp] theorem record_readGrants (s : LockSystem) (e : LockEvent) :
    (s.record e).readGrants = s.readGrants := rfl

@[simp] theorem grant_mutex (s : LockSystem) (g : Grant) : (s.grant g).mutex = s.mutex := by
  cases g <;> rfl

def requested (s : LockSystem) (m : SharedMutex) (e : LockEvent) : LockSystem :=
  { s with mutex := m, requests := s.requests + 1 }.record e

def releasedWrite (s : LockSystem) (m : SharedMutex) (r : Nat) : LockSystem :=
  { s with mutex := m, writeGrants := s.writeGrants.erase r }.record (.released r)

def releasedRead (s : LockSystem) (m : SharedMutex) (r : Nat) : LockSystem :=
  { s with mutex := m, readGrants := s.readGrants.erase r }.record (.released r)

def logged (s : LockSystem) (f : LockEvent → Option Nat) : List Nat := s.history.filterMap f

section
variable (s : LockSystem) (m : SharedMutex) (e : LockEvent) (f : LockEvent → Option Nat) (r : Nat)

@[simp] theorem mk_logged (n k : Nat) (ws rs : List Nat) :
    (LockSystem.mk m n ws rs k s.history).logged f = s.logged f := rfl

theorem record_logged : (s.record e).logged f = s.logged f ++ (f e).toList := by
  simp only [logged, record, List.filterMap_append]
  cases hf : f e with
  | none => rw [List.filterMap_cons_none hf]; rfl
  | some x => rw [List.filterMap_cons_some hf]; rfl

@[simp] theorem requested_logged :
    (s.requested m e).logged f = s.logged f ++ (f e).toList := record_logged _ e f

@[simp] theorem releasedWrite_logged :
    (s.releasedWrite m r).logged f = s.logged f ++ (f (.released r)).toList :=
  record_logged _ (.released r) f

@[simp] theorem releasedRead_logged :
    (s.releasedRead m r).logged f = s.logged f ++ (f (.released r)).toList :=
  record_logged _ (.released r) f

@[simp] theorem grantWrite_logged :
    (s.grant (.write r)).logged f = s.logged f ++ (f (.granted (.write r))).toList :=
  record_logged _ (.granted (.write r)) f

@[simp] theorem grantRead_logged :
    (s.grant (.read r)).logged f = s.logged f ++ (f (.granted (.read r))).toList :=
  record_logged _ (.granted (.read r)) f

end

/-- Everything that a section under `state_mutex_` can do. -/
inductive Section (s : LockSystem) : LockAction → LockSystem → Prop where
  | lockFree (ha : s.mutex.writerActive = false) (hr : s.mutex.readerCount = 0) :
      Section s .lock ((s.requested { s.mutex with writerActive := true }
        (.requestedWrite s.requests)).grant (.write s.requests))
  | lockQueued (hf : s.mutex.writerActive = true ∨ s.mutex.readerCount ≠ 0) :
      Section s .lock (s.requested
        { s.mutex with
          writersWaiting := s.mutex.writersWaiting + 1
          uniqueWaiters := s.mutex.uniqueWaiters ++ [s.requests] } (.requestedWrite s.requests))
  | sharedFree (ha : s.mutex.writerActive = false) (hw : s.mutex.writersWaiting = 0) :
      Section s .lockShared ((s.requested
        { s.mutex with readerCount := s.mutex.readerCount + 1 }
        (.requestedRead s.requests)).grant (.read s.requests))
  | sharedQueued (hf : s.mutex.writerActive = true ∨ s.mutex.writersWaiting ≠ 0) :
      Section s .lockShared (s.requested
        { s.mutex with sharedWaiters := s.mutex.sharedWaiters ++ [s.requests] }
        (.requestedRead s.requests))
  | unlockToWriter (hr : r ∈ s.writeGrants) (hu : s.mutex.uniqueWaiters = w :: ws) :
      Section s (.unlock r) ((s.releasedWrite
        { s.mutex with
          uniqueWaiters := ws
          writersWaiting := decrement s.mutex.writersWaiting
          writerActive := true } r).grant (.write w))
  | unlockToReader (hr : r ∈ s.writeGrants) (hu : s.mutex.uniqueWaiters = [])
      (hq : s.mutex.sharedWaiters = q :: qs) :
      Section s (.unlock r) ({ s.releasedWrite
        { s.mutex with
          writerActive := false
          sharedWaiters := qs
          readerCount := s.mutex.readerCount + 1 } r with waking := s.waking + 1 }.grant (.read q))
  | unlockFree (hr : r ∈ s.writeGrants) (hu : s.mutex.uniqueWaiters = [])
      (hq : s.mutex.sharedWaiters = []) :
      Section s (.unlock r) (s.releasedWrite { s.mutex with writerActive := false } r)
  | unlockSharedToWriter (hr : r ∈ s.readGrants) (hz : decrement s.mutex.readerCount = 0)
      (hu : s.mutex.uniqueWaiters = w :: ws) :
      Section s (.unlockShared r) ((s.releasedRead
        { s.mutex with
          readerCount := 0
          uniqueWaiters := ws
          writersWaiting := decrement s.mutex.writersWaiting
          writerActive := true } r).grant (.write w))
  | unlockSharedKept (hr : r ∈ s.readGrants)
      (hk : decrement s.mutex.readerCount ≠ 0 ∨ s.mutex.uniqueWaiters = []) :
      Section s (.unlockShared r) (s.releasedRead
        { s.mutex with readerCount := decrement s.mutex.readerCount } r)
  | wakeReader (hw : 0 < s.waking) (hq : s.mutex.sharedWaiters = q :: qs) :
      Section s .wake ({ s with mutex :=
        { s.mutex with
          sharedWaiters := qs
          readerCount := s.mutex.readerCount + 1 } }.grant (.read q))
  | wakeDone (hw : 0 < s.waking) (hq : s.mutex.sharedWaiters = []) :
      Section s .wake { s with waking := s.waking - 1 }

theorem section_lock (hs : s.step .lock = some t) : Section s .lock t := by
  by_cases hf : s.mutex.writerActive = false ∧ s.mutex.readerCount = 0
  · simp only [step, SharedMutex.asyncLock, if_pos hf, Option.some.injEq] at hs
    subst hs
    exact .lockFree hf.1 hf.2
  · simp only [step, SharedMutex.asyncLock, if_neg hf, Option.some.injEq] at hs
    subst hs
    apply Section.lockQueued
    rw [← Bool.not_eq_false]
    exact not_and_or.1 hf

theorem section_lockShared (hs : s.step .lockShared = some t) : Section s .lockShared t := by
  by_cases hf : s.mutex.writerActive = false ∧ s.mutex.writersWaiting = 0
  · simp only [step, SharedMutex.asyncLockShared, if_pos hf, Option.some.injEq] at hs
    subst hs
    exact .sharedFree hf.1 hf.2
  · simp only [step, SharedMutex.asyncLockShared, if_neg hf, Option.some.injEq] at hs
    subst hs
    apply Section.sharedQueued
    rw [← Bool.not_eq_false]
    exact not_and_or.1 hf

theorem section_unlock (hs : s.step (.unlock r) = some t) : Section s (.unlock r) t := by
  cases hu : s.mutex.uniqueWaiters with
  | cons w ws =>
    simp only [step, SharedMutex.unlock_toWriter hu, Option.ite_none_right_eq_some,
      Option.some.injEq] at hs
    obtain ⟨hr, rfl⟩ := hs
    exact .unlockToWriter hr hu
  | nil =>
    cases hq : s.mutex.sharedWaiters with
    | nil =>
      simp only [step, SharedMutex.unlock_free hu hq, Option.ite_none_right_eq_some,
        Option.some.injEq] at hs
      obtain ⟨hr, rfl⟩ := hs
      exact .unlockFree hr hu hq
    | cons q qs =>
      simp only [step, SharedMutex.unlock_toReader hu hq, Option.ite_none_right_eq_some,
        Option.some.injEq] at hs
      obtain ⟨hr, rfl⟩ := hs
      exact .unlockToReader hr hu hq

theorem section_unlockShared (hs : s.step (.unlockShared r) = some t) :
    Section s (.unlockShared r) t := by
  by_cases hk : decrement s.mutex.readerCount ≠ 0 ∨ s.mutex.uniqueWaiters = []
  · simp only [step, SharedMutex.unlockShared_kept hk, Option.ite_none_right_eq_some,
      Option.some.injEq] at hs
    obtain ⟨hr, rfl⟩ := hs
    exact .unlockSharedKept hr hk
  · obtain ⟨hz, hne⟩ := not_or.1 hk
    obtain ⟨w, ws, hu⟩ := List.exists_cons_of_ne_nil hne
    simp only [step, SharedMutex.unlockShared_toWriter (not_not.1 hz) hu,
      Option.ite_none_right_eq_some, Option.some.injEq] at hs
    obtain ⟨hr, rfl⟩ := hs
    exact .unlockSharedToWriter hr (not_not.1 hz) hu

theorem section_wake (hs : s.step .wake = some t) : Section s .wake t := by
  cases hq : s.mutex.sharedWaiters with
  | nil =>
    simp only [step, SharedMutex.wakeReader_nil hq, Option.ite_none_right_eq_some,
      Option.some.injEq] at hs
    obtain ⟨hw, rfl⟩ := hs
    exact .wakeDone hw hq
  | cons q qs =>
    simp only [step, SharedMutex.wakeReader_cons hq, Option.ite_none_right_eq_some,
      Option.some.injEq] at hs
    obtain ⟨hw, rfl⟩ := hs
    exact .wakeReader hw hq

theorem step_section (hs : s.step a = some t) : Section s a t := by
  cases a with
  | lock => exact section_lock hs
  | lockShared => exact section_lockShared hs
  | unlock r => exact section_unlock hs
  | unlockShared r => exact section_unlockShared hs
  | wake => exact section_wake hs

end LockSystem
end Noctua
