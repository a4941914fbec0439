import Noctua.Library.Execution
import Noctua.Wall.Writer

namespace Noctua
open Transition Wall
set_option autoImplicit true

/-- A message of a partition. The program keeps the text only; the number of the `push` call
that appended it tells messages of equal text apart. -/
structure Message where
  origin : Nat
  text : Text
  deriving DecidableEq, Repr

abbrev Padding := Vector UInt8 5

/-- A call on a topic; the padding is that of its local `wall_data`. -/
inductive Operation where
  | push (request : Request) (padding : Padding)
  | read (partitionId : UInt16)
  | remove (request : Request) (padding : Padding)
  deriving DecidableEq, Repr

inductive Answer where
  | pushed
  | message (m : Option Message)
  | removed (taken : Bool)
  deriving DecidableEq, Repr

/-- Where a call stands: the lock it waits for, or what it does next with the locks it has. -/
inductive Pc where
  | awaitRead
  | inspect
  | releaseRead (a : Option Answer)
  | awaitWrite
  | recheck
  | awaitWall
  | store
  | releaseWall
  | mutate
  | releaseWrite (a : Answer)
  | finished (a : Answer)
  deriving DecidableEq, Repr

def Pc.holdsRead : Pc → Bool
  | .inspect | .releaseRead _ => true
  | _ => false

def Pc.holdsWrite : Pc → Bool
  | .recheck | .awaitWall | .store | .releaseWall | .mutate | .releaseWrite _ => true
  | _ => false

def Pc.holdsWall : Pc → Bool
  | .store | .releaseWall => true
  | _ => false

def Pc.isFinished : Pc → Bool
  | .finished _ => true
  | _ => false

structure Call where
  client : Nat
  operation : Operation
  partition : UInt16
  pc : Pc
  deriving DecidableEq, Repr

inductive TraceEvent where
  | invoke (id : Nat) (op : Operation)
  | respond (id : Nat) (op : Operation) (a : Answer)
  | stored (d : WallData)
  | pushed (m : Message)
  | popped (m : Message)
  deriving DecidableEq, Repr

/-- A `topic_t` with the calls made on it, and the trace of what happened at each partition. -/
structure Topic where
  storage : List (List Message)
  wallWriter : WallWriter := {}
  calls : List Call := []
  trace : List (UInt16 × TraceEvent) := []
  deriving DecidableEq, Repr

inductive TopicAction where
  | invoke (client : Nat) (op : Operation)
  | advance (i : Nat)
  | failStore (i kept : Nat)
  deriving DecidableEq, Repr

inductive Effect where
  | none
  | store (d : WallData)
  | failStore (d : WallData) (kept : Nat)
  | push (m : Message)
  | pop
  | respond (a : Answer)

/-- The index that `push`, `read` and `remove` compute for a topic of `size` partitions. -/
def Operation.partitionIdx (hash : Request → Nat) (size : Nat) : Operation → UInt16
  | .push r _ =>
    if r.partitionId = invalidTopicId then UInt16.ofNat (hash r % size) else r.partitionId
  | .read p => p
  | .remove r _ => r.partitionId

/-- The `kassert_ne` of `read` and `remove`. -/
def Operation.asserts : Operation → Bool
  | .push _ _ => true
  | .read p => p != invalidTopicId
  | .remove r _ => r.partitionId != invalidTopicId

def Operation.isRemove : Operation → Bool
  | .remove _ _ => true
  | _ => false

def Operation.start : Operation → Pc
  | .push _ _ => .awaitWrite
  | .read _ | .remove _ _ => .awaitRead

def Call.wallData (c : Call) : Option WallData :=
  match c.operation with
  | .push r padding => some ⟨c.partition, true, padding, r.message⟩
  | .remove r padding => some ⟨c.partition, false, padding, r.message⟩
  | .read _ => none

namespace Topic

def init (partitionsCount : Nat) : Topic := { storage := List.replicate partitionsCount [] }

def queue (t : Topic) (p : UInt16) : List Message := t.storage.getD p.toNat []

/-- The partition locks and `wall_mutex_` are correct locks, held by the calls. -/
def Readable (t : Topic) (p : UInt16) : Prop :=
  ∀ c ∈ t.calls, c.partition = p → c.pc.holdsWrite = false

def Writable (t : Topic) (p : UInt16) : Prop :=
  ∀ c ∈ t.calls, c.partition = p → c.pc.holdsWrite = false ∧ c.pc.holdsRead = false

def WallFree (t : Topic) : Prop := ∀ c ∈ t.calls, c.pc.holdsWall = false

instance (t : Topic) (p : UInt16) : Decidable (t.Readable p) :=
  inferInstanceAs (Decidable (∀ c ∈ t.calls, _))

instance (t : Topic) (p : UInt16) : Decidable (t.Writable p) :=
  inferInstanceAs (Decidable (∀ c ∈ t.calls, _))

instance (t : Topic) : Decidable t.WallFree := inferInstanceAs (Decidable (∀ c ∈ t.calls, _))

/-- The next step of a call. There is none while the lock it waits for is taken, nor where
`remove` dereferences the null `front()` of an empty partition. -/
def next (t : Topic) (i : Nat) (c : Call) : Option (Pc × Effect) :=
  match c.pc, c.operation with
  | .awaitRead, _ => if t.Readable c.partition then some (.inspect, .none) else none
  | .inspect, .read _ =>
    some (.releaseRead (some (.message (t.queue c.partition).head?)), .none)
  | .inspect, .remove r _ => (t.queue c.partition).head?.map fun m =>
    (.releaseRead (if m.text ≠ r.message.text then some (.removed false) else none), .none)
  | .inspect, .push _ _ => none
  | .releaseRead (some a), _ => some (.finished a, .respond a)
  | .releaseRead none, _ => some (.awaitWrite, .none)
  | .awaitWrite, .remove _ _ => if t.Writable c.partition then some (.recheck, .none) else none
  | .awaitWrite, .push _ _ => if t.Writable c.partition then some (.awaitWall, .none) else none
  | .awaitWrite, .read _ => none
  | .recheck, .remove r _ => (t.queue c.partition).head?.map fun m =>
    (if m.text ≠ r.message.text then .releaseWrite (.removed false) else .awaitWall, .none)
  | .recheck, _ => none
  | .awaitWall, _ => if t.WallFree then some (.store, .none) else none
  | .store, _ => c.wallData.map fun d => (.releaseWall, .store d)
  | .releaseWall, _ => some (.mutate, .none)
  | .mutate, .push r _ => some (.releaseWrite .pushed, .push ⟨i, r.message.text⟩)
  | .mutate, .remove _ _ => some (.releaseWrite (.removed true), .pop)
  | .mutate, .read _ => none
  | .releaseWrite a, _ => some (.finished a, .respond a)
  | .finished _, _ => none

def emit (t : Topic) (p : UInt16) (e : TraceEvent) : Topic :=
  { t with trace := t.trace ++ [(p, e)] }

def perform (t : Topic) (i : Nat) (c : Call) : Effect → Topic
  | .none => t
  | .store d =>
    let t' := { t with wallWriter := t.wallWriter.store d.bytes }
    if t.wallWriter.failed then t' else t'.emit c.partition (.stored d)
  | .failStore d kept => { t with wallWriter := t.wallWriter.storeFails d.bytes kept }
  | .push m => { t with storage := t.storage.modify c.partition.toNat (· ++ [m]) }.emit
    c.partition (.pushed m)
  | .pop =>
    match t.queue c.partition with
    | [] => t
    | m :: _ => { t with storage := t.storage.modify c.partition.toNat List.tail }.emit
      c.partition (.popped m)
  | .respond a => t.emit c.partition (.respond i c.operation a)

def setPc (t : Topic) (i : Nat) (c : Call) (pc : Pc) : Topic :=
  { t with calls := t.calls.set i { c with pc := pc } }

def advanced (t : Topic) (i : Nat) (c : Call) (pc : Pc) (e : Effect) : Topic :=
  (t.perform i c e).setPc i c pc

def invoked (t : Topic) (client : Nat) (op : Operation) (p : UInt16) : Topic :=
  let c : Call := ⟨client, op, p, op.start⟩
  { t with calls := t.calls ++ [c] }.emit p (.invoke t.calls.length op)

/-- A call is accepted on a partition that the topic has. -/
def step (hash : Request → Nat) (t : Topic) : TopicAction → Option Topic
  | .invoke client op =>
    let p := op.partitionIdx hash t.storage.length
    if op.asserts ∧ p.toNat < t.storage.length then some (t.invoked client op p) else none
  | .advance i =>
    t.calls[i]?.bind fun c => (t.next i c).map fun (pc, e) => t.advanced i c pc e
  | .failStore i kept =>
    t.calls[i]?.bind fun c => (t.next i c).bind fun
      | (pc, .store d) => some (t.advanced i c pc (.failStore d kept))
      | _ => none

def DereferencesNull (t : Topic) (c : Call) : Prop :=
  c.operation.isRemove = true ∧ (c.pc = .inspect ∨ c.pc = .recheck) ∧ t.queue c.partition = []

instance (t : Topic) (c : Call) : Decidable (t.DereferencesNull c) :=
  inferInstanceAs (Decidable (_ ∧ _ ∧ _))

end Topic
end Noctua
