import Noctua.Library.Execution
import Noctua.Library.Chain
import Noctua.Library.ListFamily
import Noctua.Messages.Message
import Mathlib.Logic.Function.Basic

namespace Noctua.Messages
open Function
set_option autoImplicit true

/-- The fields of `message_queue_t`; the null pointer is 0. -/
structure MessageQueue where
  size : UInt64 := 0
  head : Nat := 0
  tail : Nat := 0
  deriving DecidableEq, Repr

def MessageQueue.empty (q : MessageQueue) : Bool := q.size == 0

inductive NodeEvent where
  | followed (id : Nat)
  | destroyed (id : Nat)
  deriving DecidableEq, Repr

/-- The nodes on the heap, the queues of a program (`none` for a destroyed one), the number of
nodes created so far, and what has been done with them. -/
structure MessageHeap where
  nodes : Nat → Option MessageNode := fun _ => none
  queues : List (Option MessageQueue) := []
  created : Nat := 0
  log : List NodeEvent := []

/-- A member function of some queue; `push` comes with the address that `malloc` returns. -/
inductive QueueAction where
  | construct
  | push (this : Nat) (msg : Text) (address : Nat)
  | pop (this : Nat)
  | moveConstruct (other : Nat)
  | moveAssign (this other : Nat)
  | destroy (this : Nat)
  deriving DecidableEq, Repr

namespace MessageHeap

def createMessage (s : MessageHeap) (address : Nat) (msg : Text) : MessageHeap :=
  { s with
    nodes := update s.nodes address (some (.create s.created msg))
    created := s.created + 1 }

def getNext (s : MessageHeap) (p : Nat) : Option (Nat × MessageHeap) :=
  (s.nodes p).map fun m => (m.getNext, { s with log := s.log ++ [.followed m.id] })

def setNext (s : MessageHeap) (p next : Nat) : Option MessageHeap :=
  (s.nodes p).map fun m => { s with nodes := update s.nodes p (some (m.setNext next)) }

def destroyMessage (s : MessageHeap) (p : Nat) : Option MessageHeap :=
  if p = 0 then some s
  else (s.nodes p).map fun m =>
    { s with nodes := update s.nodes p none, log := s.log ++ [.destroyed m.id] }

def push (s : MessageHeap) (q : MessageQueue) (msg : Text) (address : Nat) :
    Option (MessageQueue × MessageHeap) :=
  let s := s.createMessage address msg
  if q.tail = 0 then some ({ size := q.size + 1, head := address, tail := address }, s)
  else (s.setNext q.tail address).map fun s =>
    ({ q with size := q.size + 1, tail := address }, s)

def pop (s : MessageHeap) (q : MessageQueue) : Option (MessageQueue × MessageHeap) :=
  if q.head = 0 then some (q, s)
  else
    let oldHead := q.head
    (s.getNext q.head).bind fun (next, s) =>
      let tail := if next = 0 then 0 else q.tail
      (s.destroyMessage oldHead).map fun s =>
        ({ size := q.size - 1, head := next, tail := tail }, s)

/-- The loop of the destructor. -/
def destroyLoop : Nat → MessageHeap → Nat → Option MessageHeap
  | 0, _, _ => none
  | fuel + 1, s, current =>
    if current = 0 then some s
    else (s.getNext current).bind fun (next, s) =>
      (s.destroyMessage current).bind fun s => destroyLoop fuel s next

def live (s : MessageHeap) (i : Nat) : Option MessageQueue := s.queues[i]?.join

def setQueue (s : MessageHeap) (i : Nat) (q : Option MessageQueue) : MessageHeap :=
  { s with queues := s.queues.set i q }

/-- The loop of the destructor gets as many turns as nodes have been created, and one more. -/
def step (s : MessageHeap) : QueueAction → Option MessageHeap
  | .construct => some { s with queues := s.queues ++ [some {}] }
  | .push i msg address =>
    (s.live i).bind fun q => (s.push q msg address).map fun (q, s) => s.setQueue i (some q)
  | .pop i => (s.live i).bind fun q => (s.pop q).map fun (q, s) => s.setQueue i (some q)
  | .moveConstruct j =>
    (s.live j).map fun other =>
      { s with queues := s.queues.set j (some { size := 0, head := 0, tail := 0 }) ++ [some other] }
  | .moveAssign i j =>
    (s.live i).bind fun this => (s.live j).map fun other =>
      { s with queues := (s.queues.set i (some other)).set j (some this) }
  | .destroy i =>
    (s.live i).bind fun q =>
      (destroyLoop (s.created + 1) s q.head).map fun s => s.setQueue i none

/-- The queues that an action names live, and the allocator returns a non-zero address below 2^47
at which no node lives. -/
def Allowed (s : MessageHeap) : QueueAction → Prop
  | .construct => True
  | .push i _ address => (s.live i).isSome ∧ address ≠ 0 ∧ address < 2 ^ MessageNode.nextBits ∧
      s.nodes address = none
  | .pop i | .moveConstruct i | .destroy i => (s.live i).isSome
  | .moveAssign i j => (s.live i).isSome ∧ (s.live j).isSome

instance (s : MessageHeap) : (a : QueueAction) → Decidable (s.Allowed a)
  | .construct => inferInstanceAs (Decidable True)
  | .push i _ address => inferInstanceAs (Decidable ((s.live i).isSome ∧ address ≠ 0 ∧
      address < 2 ^ MessageNode.nextBits ∧ s.nodes address = none))
  | .pop i | .moveConstruct i | .destroy i => inferInstanceAs (Decidable ((s.live i).isSome = true))
  | .moveAssign i j => inferInstanceAs (Decidable ((s.live i).isSome ∧ (s.live j).isSome))

/-- What an iterator visits from `begin()` to `end()`. -/
def traverse (s : MessageHeap) (fuel : Nat) (q : MessageQueue) : Option (List Nat) :=
  Chain.walk s.nodes MessageNode.getNext 0 fuel q.head

end MessageHeap
end Noctua.Messages
