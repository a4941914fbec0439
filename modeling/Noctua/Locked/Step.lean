import Noctua.Topic.Step
import Noctua.Locked.Modes

namespace Noctua
open Transition Wall
set_option autoImplicit true

/-- The locks of a topic: those of each partition's `mutex_`, and `wall_mutex_`. -/
inductive Lock where
  | partition (p : UInt16) (mode : LockMode)
  | wall
  deriving DecidableEq, Repr

/-- The requests that a call has made of a mutex and not given back. -/
structure Tickets where
  partition : Option Nat := none
  wall : Option Nat := none
  deriving DecidableEq, Repr

namespace Tickets

def of (k : Tickets) : Lock → Option Nat
  | .partition _ _ => k.partition
  | .wall => k.wall

def set (k : Tickets) (l : Lock) (r : Option Nat) : Tickets :=
  match l with
  | .partition _ _ => { k with partition := r }
  | .wall => { k with wall := r }

end Tickets

namespace Call

/-- The lock that a `co_await` asks for. -/
def awaits (c : Call) : Option Lock :=
  match c.pc with
  | .awaitRead => some (.partition c.partition .read)
  | .awaitWrite => some (.partition c.partition .write)
  | .awaitWall => some .wall
  | _ => none

/-- The lock whose guard goes out of scope. -/
def leaves (c : Call) : Option Lock :=
  match c.pc with
  | .releaseRead _ => some (.partition c.partition .read)
  | .releaseWrite _ => some (.partition c.partition .write)
  | .releaseWall => some .wall
  | _ => none

/-- Where a call goes on with the lock that it waited for. -/
def entered (c : Call) : Option Pc :=
  match c.pc, c.operation with
  | .awaitRead, _ => some .inspect
  | .awaitWrite, .remove _ _ => some .recheck
  | .awaitWrite, .push _ _ => some .awaitWall
  | .awaitWall, _ => some .store
  | _, _ => none

end Call

/-- A topic whose calls take turns by the mutexes of the program. -/
structure LockedTopic where
  topic : Topic
  mutexes : List LockSystem
  wallMutex : UniqueLockSystem := {}
  tickets : List Tickets := []
  deriving DecidableEq, Repr

/-- `request` is the section in which a call asks for a lock; a call that has asked and was
granted the lock goes on with `advance`. -/
inductive LockedAction where
  | invoke (client : Nat) (op : Operation)
  | request (i : Nat)
  | advance (i : Nat)
  | failStore (i kept : Nat)
  | wake (p : UInt16)
  deriving DecidableEq, Repr

def LockedAction.onTopic : LockedAction → Option TopicAction
  | .invoke client op => some (.invoke client op)
  | .advance i => some (.advance i)
  | .failStore i kept => some (.failStore i kept)
  | .request _ | .wake _ => none

namespace LockedTopic

def init (partitionsCount : Nat) : LockedTopic where
  topic := .init partitionsCount
  mutexes := List.replicate partitionsCount {}

def mutex (t : LockedTopic) (p : UInt16) : LockSystem := t.mutexes.getD p.toNat {}

def setMutex (t : LockedTopic) (p : UInt16) (m : LockSystem) : LockedTopic :=
  { t with mutexes := t.mutexes.set p.toNat m }

def setTickets (t : LockedTopic) (i : Nat) (k : Tickets) : LockedTopic :=
  { t with tickets := t.tickets.set i k }

def waiters (t : LockedTopic) : Lock → List Nat
  | .partition p mode => (t.mutex p).waiters mode
  | .wall => t.wallMutex.mutex.waiters

def grants (t : LockedTopic) : Lock → List Nat
  | .partition p mode => (t.mutex p).grants mode
  | .wall => t.wallMutex.unreleased

def ticket (t : LockedTopic) : Lock → Nat
  | .partition p _ => (t.mutex p).requests
  | .wall => t.wallMutex.requests

def lock (t : LockedTopic) : Lock → Option LockedTopic
  | .partition p mode => ((t.mutex p).step mode.request).map (t.setMutex p)
  | .wall => (t.wallMutex.step .lock).map fun m => { t with wallMutex := m }

def unlock (t : LockedTopic) (r : Nat) : Lock → Option LockedTopic
  | .partition p mode => ((t.mutex p).step (mode.release r)).map (t.setMutex p)
  | .wall => (t.wallMutex.step (.unlock r)).map fun m => { t with wallMutex := m }

/-- The next step of a call, which at a lock needs the grant that it asked for. -/
def next (t : LockedTopic) (i : Nat) (c : Call) (k : Tickets) : Option (Pc × Effect) :=
  match c.awaits with
  | none => t.topic.next i c
  | some l => (k.of l).bind fun r => if r ∈ t.grants l then c.entered.map (·, .none) else none

/-- What becomes of the locks in the step of a call. -/
def release (t : LockedTopic) (i : Nat) (c : Call) (k : Tickets) : Option LockedTopic :=
  match c.leaves with
  | none => some t
  | some l => (k.of l).bind fun r => (t.unlock r l).map (·.setTickets i (k.set l none))

def step (hash : Request → Nat) (t : LockedTopic) : LockedAction → Option LockedTopic
  | .invoke client op => (t.topic.step hash (.invoke client op)).map fun u =>
    { t with topic := u, tickets := t.tickets ++ [{}] }
  | .request i =>
    t.topic.calls[i]?.bind fun c => t.tickets[i]?.bind fun k => c.awaits.bind fun l =>
      if k.of l = none then (t.lock l).map (·.setTickets i (k.set l (some (t.ticket l))))
      else none
  | .advance i =>
    t.topic.calls[i]?.bind fun c => t.tickets[i]?.bind fun k =>
      (t.next i c k).bind fun (pc, e) => (t.release i c k).map fun u =>
        { u with topic := t.topic.advanced i c pc e }
  | .failStore i kept => (t.topic.step hash (.failStore i kept)).map fun u =>
    { t with topic := u }
  | .wake p => ((t.mutex p).step .wake).map (t.setMutex p)

/-- A push, and two reads that queue up behind it and are woken by its `unlock`. -/
def contended : List LockedAction :=
  [.invoke 0 (.push (.ofByte 97) (.replicate 5 0)), .request 0, .advance 0,
    .invoke 1 (.read 0), .request 1, .invoke 2 (.read 0), .request 2,
    .request 0, .advance 0, .advance 0, .advance 0, .advance 0, .advance 0, .wake 0, .wake 0,
    .advance 1, .advance 2, .advance 1, .advance 2, .advance 1, .advance 2]

end LockedTopic
end Noctua
