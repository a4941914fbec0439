import Noctua.Library.Execution
import Mathlib.Algebra.Order.Ring.Nat

namespace Noctua
open Transition
set_option autoImplicit true

/-- The fields of `shared_mutex_t`; a queued waiter is known by the number of its request. -/
structure SharedMutex where
  writerActive : Bool := false
  readerCount : Nat := 0
  writersWaiting : Nat := 0
  sharedWaiters : List Nat := []
  uniqueWaiters : List Nat := []
  deriving DecidableEq, Repr

inductive Grant where
  | none
  | write (r : Nat)
  | read (r : Nat)
  deriving DecidableEq, Repr

/-- Decrement of a `std::size_t`, which wraps around at zero. -/
def decrement (n : Nat) : Nat := if n = 0 then 2 ^ 64 - 1 else n - 1

namespace SharedMutex

def asyncLock (m : SharedMutex) (r : Nat) : SharedMutex × Grant :=
  if m.writerActive = false ∧ m.readerCount = 0 then
    ({ m with writerActive := true }, .write r)
  else
    ({ m with
      writersWaiting := m.writersWaiting + 1
      uniqueWaiters := m.uniqueWaiters ++ [r] }, .none)

def asyncLockShared (m : SharedMutex) (r : Nat) : SharedMutex × Grant :=
  if m.writerActive = false ∧ m.writersWaiting = 0 then
    ({ m with readerCount := m.readerCount + 1 }, .read r)
  else
    ({ m with sharedWaiters := m.sharedWaiters ++ [r] }, .none)

def wakeWriter (m : SharedMutex) (w : Nat) (ws : List Nat) : SharedMutex × Grant :=
  ({ m with
    uniqueWaiters := ws
    writersWaiting := decrement m.writersWaiting
    writerActive := true }, .write w)

/-- One test of the loop condition in `unlock`, with the pop that follows it. -/
def wakeReader (m : SharedMutex) : SharedMutex × Grant :=
  match m.sharedWaiters with
  | [] => (m, .none)
  | r :: rs => ({ m with sharedWaiters := rs, readerCount := m.readerCount + 1 }, .read r)

/-- The first section of `unlock`, up to the point where it drops `state_mutex_`. -/
def unlock (m : SharedMutex) : SharedMutex × Grant :=
  let m := { m with writerActive := false }
  match m.uniqueWaiters with
  | w :: ws => m.wakeWriter w ws
  | [] => m.wakeReader

def unlockShared (m : SharedMutex) : SharedMutex × Grant :=
  let m := { m with readerCount := decrement m.readerCount }
  if m.readerCount = 0 then
    match m.uniqueWaiters with
    | w :: ws => m.wakeWriter w ws
    | [] => (m, .none)
  else (m, .none)

end SharedMutex

inductive LockEvent where
  | requestedWrite (r : Nat)
  | requestedRead (r : Nat)
  | granted (g : Grant)
  | released (r : Nat)
  deriving DecidableEq, Repr

/-- A mutex with its clients. `requests` numbers the next request, the grants are those
not yet released, and `waking` counts the `unlock` calls that are inside their loop. -/
structure LockSystem where
  mutex : SharedMutex := {}
  requests : Nat := 0
  writeGrants : List Nat := []
  readGrants : List Nat := []
  waking : Nat := 0
  history : List LockEvent := []
  deriving DecidableEq, Repr

/-- The sections under `state_mutex_`: requests, releases of granted guards, and one more
turn of a reader wake-up loop. -/
inductive LockAction where
  | lock
  | lockShared
  | unlock (r : Nat)
  | unlockShared (r : Nat)
  | wake
  deriving DecidableEq, Repr

namespace LockSystem

def record (s : LockSystem) (e : LockEvent) : LockSystem := { s with history := s.history ++ [e] }

def grant (s : LockSystem) : Grant → LockSystem
  | .none => s
  | .write r => { s with writeGrants := r :: s.writeGrants }.record (.granted (.write r))
  | .read r => { s with readGrants := r :: s.readGrants }.record (.granted (.read r))

def step (s : LockSystem) : LockAction → Option LockSystem
  | .lock =>
    let (m, g) := s.mutex.asyncLock s.requests
    some (({ s with mutex := m, requests := s.requests + 1 }.record
      (.requestedWrite s.requests)).grant g)
  | .lockShared =>
    let (m, g) := s.mutex.asyncLockShared s.requests
    some (({ s with mutex := m, requests := s.requests + 1 }.record
      (.requestedRead s.requests)).grant g)
  | .unlock r =>
    if r ∈ s.writeGrants then
      let (m, g) := s.mutex.unlock
      let s := { s with mutex := m, writeGrants := s.writeGrants.erase r }.record (.released r)
      match g with
      -- a woken reader means that the call is now inside its loop
      | .read _ => some ({ s with waking := s.waking + 1 }.grant g)
      | _ => some (s.grant g)
    else none
  | .unlockShared r =>
    if r ∈ s.readGrants then
      let (m, g) := s.mutex.unlockShared
      some (({ s with mutex := m, readGrants := s.readGrants.erase r }.record
        (.released r)).grant g)
    else none
  | .wake =>
    if 0 < s.waking then
      let (m, g) := s.mutex.wakeReader
      match g with
      | .none => some { s with mutex := m, waking := s.waking - 1 }
      | _ => some ({ s with mutex := m }.grant g)
    else none

def MutualExclusion (s : LockSystem) : Prop :=
  s.writeGrants.length ≤ 1 ∧ (s.writeGrants ≠ [] → s.readGrants = [])

instance (s : LockSystem) : Decidable (MutualExclusion s) := inferInstanceAs (Decidable (_ ∧ _))

/-- A turn of the wake-up loop does not find a queued reader while a writer is active. -/
def WakesNoReaderPastWriter (s : LockSystem) (a : LockAction) : Prop :=
  a = .wake → 0 < s.waking → s.mutex.writerActive = true → s.mutex.sharedWaiters = []

end LockSystem
end Noctua
