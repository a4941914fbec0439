import Noctua.Library.Execution
import Noctua.Rpc.Handlers

namespace Noctua.Rpc
open Transition
set_option autoImplicit true

inductive SessionState where
  | receiving
  | calling (opcode : UInt8) (topicName : Text) (call : Nat)
  | closed
  deriving DecidableEq, Repr

/-- A connection: the bytes that its client sends and that are still to be read, and the
responses sent so far. -/
structure Session where
  input : List UInt8
  state : SessionState := .receiving
  output : List Response := []
  deriving DecidableEq, Repr

def Session.send (s : Session) (r : Response) : Session := { s with output := s.output ++ [r] }

def Session.close (s : Session) : Session := { s with state := .closed }

structure Broker where
  registry : Registry := []
  sessions : List Session := []

/-- A connection is accepted, a session takes its next turn up to the call of a topic, a call
of a topic makes its next step, or a session sends the response to its finished call. -/
inductive BrokerAction where
  | connect (input : List UInt8)
  | receive (s : Nat) (env : HandlerEnv)
  | advance (topicName : Text) (call : Nat)
  | failStore (topicName : Text) (call kept : Nat)
  | reply (s : Nat)

namespace Broker

def setSession (b : Broker) (s : Nat) (session : Session) : Broker :=
  { b with sessions := b.sessions.set s session }

/-- Start a call of a topic. There is no such step where its partition index is out of range. -/
def callTopic (b : Broker) (s : Nat) (session : Session) (opcode : UInt8) (topicName : Text)
    (op : Operation) : Option Broker :=
  (b.registry.getTopic topicName).bind fun t =>
    (t.step requestHash (.invoke s op)).map fun t' =>
      { b with registry := b.registry.update topicName t' }.setSession s
        { session with state := .calling opcode topicName t.calls.length }

/-- A handler that leaves its buffer or aborts has no next state. -/
def handle (b : Broker) (s : Nat) (session : Session) (env : HandlerEnv) (f : Frame) :
    Option Broker :=
  let (registry, d) := handleRequest b.registry env f
  match d with
  | .respond r => some ({ b with registry := registry }.setSession s (session.send r))
  | .call topicName op => callTopic { b with registry := registry } s session f.opcode topicName op
  | .overflow | .abort => none

def advanceTopic (b : Broker) (topicName : Text) (a : TopicAction) : Option Broker :=
  (b.registry.getTopic topicName).bind fun t =>
    (t.step requestHash a).map fun t' => { b with registry := b.registry.update topicName t' }

def receiving (b : Broker) (s : Nat) : Option Session :=
  b.sessions[s]?.filter fun session => session.state = .receiving

def step (b : Broker) : BrokerAction → Option Broker
  | .connect input => some { b with sessions := b.sessions ++ [{ input := input }] }
  | .receive s env =>
    (b.receiving s).bind fun session =>
      match Rpc.receive session.input with
      | .closed => some (b.setSession s session.close)
      | .badMagic => some (b.setSession s (session.send
          (errorResponse Opcode.push .internalError "Invalid magic number")).close)
      | .tooLarge opcode => some (b.setSession s (session.send
          (errorResponse opcode .internalError "Data too large")).close)
      | .request f rest => b.handle s { session with input := rest } env f
  | .advance topicName call => b.advanceTopic topicName (.advance call)
  | .failStore topicName call kept => b.advanceTopic topicName (.failStore call kept)
  | .reply s =>
    b.sessions[s]?.bind fun session =>
      match session.state with
      | .calling opcode topicName call =>
        ((b.registry.getTopic topicName).bind fun t => t.calls[call]?).bind fun c =>
          match c.pc with
          | .finished a => some (b.setSession s
              { session.send (replyTo opcode a) with state := .receiving })
          | _ => none
      | _ => none

variable {b b' : Broker} {P : Topic → Prop} {session : Session}

theorem advanceTopic_all (keep : ∀ t a u, P t → t.step requestHash a = some u → P u)
    (h : b.registry.All P) (hs : b.advanceTopic name a = some b') : b'.registry.All P := by
  obtain ⟨t, ht, hs⟩ := Option.bind_eq_some_iff.1 hs
  obtain ⟨u, hu, rfl⟩ := Option.map_eq_some_iff.1 hs
  exact h.update (keep t a u (h.getTopic ht) hu)

theorem callTopic_all (keep : ∀ t a u, P t → t.step requestHash a = some u → P u)
    (h : b.registry.All P) (hs : b.callTopic s session opcode name op = some b') :
    b'.registry.All P := by
  obtain ⟨t, ht, hs⟩ := Option.bind_eq_some_iff.1 hs
  obtain ⟨u, hu, rfl⟩ := Option.map_eq_some_iff.1 hs
  exact h.update (keep t _ u (h.getTopic ht) hu)

/-- The rule for topics: what holds of a new topic and is kept by its steps holds of every topic
of the server. -/
theorem topics_rule (hinit : P (Topic.init Registry.partitionsCount))
    (keep : ∀ t a u, P t → t.step requestHash a = some u → P u) (b : Broker) (a : BrokerAction)
    (b' : Broker) (h : b.registry.All P) (hs : b.step a = some b') : b'.registry.All P := by
  cases a with
  | connect input =>
    cases hs
    exact h
  | receive s env =>
    obtain ⟨session, -, hs⟩ := Option.bind_eq_some_iff.1 hs
    split at hs
    · cases hs
      exact h
    · cases hs
      exact h
    · cases hs
      exact h
    · rename_i f rest _
      have hr := h.handleRequest hinit env f
      rw [handle] at hs
      generalize handleRequest b.registry env f = x at hr hs
      obtain ⟨reg, d⟩ := x
      cases d with
      | respond r =>
        cases hs
        exact hr
      | call name op => exact callTopic_all (b := { b with registry := reg }) keep hr hs
      | overflow => cases hs
      | abort => cases hs
  | advance name call => exact advanceTopic_all keep h hs
  | failStore name call kept => exact advanceTopic_all keep h hs
  | reply s =>
    obtain ⟨session, -, hs⟩ := Option.bind_eq_some_iff.1 hs
    split at hs
    · obtain ⟨c, -, hs⟩ := Option.bind_eq_some_iff.1 hs
      split at hs
      · cases hs
        exact h
      · cases hs
    · cases hs

end Broker
end Noctua.Rpc
