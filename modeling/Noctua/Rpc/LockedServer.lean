import Noctua.Locked.Refinement
import Noctua.Locked.Progress
import Noctua.Rpc.ClientHistory
import Noctua.Rpc.Liveness

namespace Noctua.Rpc
open Transition Linearization
set_option autoImplicit true

/-- A `topic_registry_t` whose topics take turns by the mutexes of the program. -/
abbrev LockedRegistry := List (Text × LockedTopic)

namespace LockedRegistry

def topics (reg : LockedRegistry) : Registry := Table.mapValues LockedTopic.topic reg

def getTopic (reg : LockedRegistry) (topicName : Text) : Option LockedTopic := reg.lookup topicName

def update (reg : LockedRegistry) (topicName : Text) (t : LockedTopic) : LockedRegistry :=
  Table.update reg topicName t

/-- The registry that a handler leaves: nobody has locked a mutex of a new topic yet. -/
def adopt (reg : LockedRegistry) (topics : Registry) : LockedRegistry :=
  reg ++ (topics.drop reg.length).map fun x => (x.1, LockedTopic.init Registry.partitionsCount)

end LockedRegistry

structure LockedBroker where
  registry : LockedRegistry := []
  sessions : List Session := []

/-- What happens at a topic, but for a new call, is a step of its mutexes or of one call. -/
inductive LockedBrokerAction where
  | connect (input : List UInt8)
  | receive (s : Nat) (env : HandlerEnv)
  | topic (topicName : Text) (a : LockedAction)
  | reply (s : Nat)

def LockedBrokerAction.onBroker : LockedBrokerAction → Option BrokerAction
  | .connect input => some (.connect input)
  | .receive s env => some (.receive s env)
  | .topic topicName (.advance call) => some (.advance topicName call)
  | .topic topicName (.failStore call kept) => some (.failStore topicName call kept)
  | .topic _ _ => none
  | .reply s => some (.reply s)

namespace LockedBroker

def broker (b : LockedBroker) : Broker := ⟨b.registry.topics, b.sessions⟩

def setSession (b : LockedBroker) (s : Nat) (session : Session) : LockedBroker :=
  { b with sessions := b.sessions.set s session }

def callTopic (b : LockedBroker) (s : Nat) (session : Session) (opcode : UInt8) (topicName : Text)
    (op : Operation) : Option LockedBroker :=
  (b.registry.getTopic topicName).bind fun t =>
    (t.step requestHash (.invoke s op)).map fun t' =>
      { b with registry := b.registry.update topicName t' }.setSession s
        { session with state := .calling opcode topicName t.topic.calls.length }

def handle (b : LockedBroker) (s : Nat) (session : Session) (env : HandlerEnv) (f : Frame) :
    Option LockedBroker :=
  let (topics, d) := handleRequest b.registry.topics env f
  let b := { b with registry := b.registry.adopt topics }
  match d with
  | .respond r => some (b.setSession s (session.send r))
  | .call topicName op => b.callTopic s session f.opcode topicName op
  | .overflow | .abort => none

def advanceTopic (b : LockedBroker) (topicName : Text) (a : LockedAction) : Option LockedBroker :=
  (b.registry.getTopic topicName).bind fun t =>
    (t.step requestHash a).map fun t' => { b with registry := b.registry.update topicName t' }

def receiving (b : LockedBroker) (s : Nat) : Option Session :=
  b.sessions[s]?.filter fun session => session.state = .receiving

def step (b : LockedBroker) : LockedBrokerAction → Option LockedBroker
  | .connect input => some { b with sessions := b.sessions ++ [{ input := input }] }
  | .receive s env =>
    (b.receiving s).bind fun session =>
      match Rpc.receive session.input with
      | .closed => some (b.setSession s session.close)
      | .badMagic => some (b.setSession s (session.send
          (errorResponse Opcode.push .internalError "Invalid magic number")).close)
      | .tooLarge opcode => some (b.setSession s (session.send
          (errorResponse opcode .internalError "Data too large")).close)
      | .request f rest => b.handle s { session with input := rest } env f
  | .topic topicName a => if a.isInvoke then none else b.advanceTopic topicName a
  | .reply s =>
    b.sessions[s]?.bind fun session =>
      match session.state with
      | .calling opcode topicName call =>
        ((b.registry.getTopic topicName).bind fun t => t.topic.calls[call]?).bind fun c =>
          match c.pc with
          | .finished a => some (b.setSession s
              { session.send (replyTo opcode a) with state := .receiving })
          | _ => none
      | _ => none

end LockedBroker

namespace LockedRegistry
variable {reg : LockedRegistry} {name : Text} {P : LockedTopic → Prop}

theorem getTopic_topics (reg : LockedRegistry) (name : Text) :
    reg.topics.getTopic name = (reg.getTopic name).map LockedTopic.topic :=
  Table.lookup_mapValues LockedTopic.topic reg name

theorem topics_update (reg : LockedRegistry) (name : Text) (t : LockedTopic) :
    (reg.update name t).topics = reg.topics.update name t.topic :=
  Table.mapValues_update LockedTopic.topic reg name t

theorem adopt_same (reg : LockedRegistry) : reg.adopt reg.topics = reg := by
  rw [adopt, topics, Table.mapValues, List.drop_of_length_le (List.length_map _).le, List.map_nil,
    List.append_nil]

theorem topics_adopt (reg : LockedRegistry) (env : HandlerEnv) (f : Frame) :
    (reg.adopt (handleRequest reg.topics env f).1).topics =
      (handleRequest reg.topics env f).1 := by
  have hlen : reg.length = reg.topics.length := (List.length_map _).symm
  rcases handleRequest_registry reg.topics env f with he | ⟨-, -, he⟩
  · rw [he, adopt_same]
  · rw [he, adopt, hlen, List.drop_left, topics, Table.mapValues, List.map_append]
    rfl

theorem distinct_topics : reg.topics.Distinct ↔ Table.Distinct reg := by
  rw [topics, Table.mapValues, Registry.Distinct, Table.Distinct, List.map_map]
  rfl

theorem distinct_adopt {env : HandlerEnv} {f : Frame} {op : Operation} (h : Table.Distinct reg)
    (hd : handleRequest reg.topics env f = (topics', .call name op)) :
    Table.Distinct (reg.adopt topics') := by
  have htopics := topics_adopt reg env f
  rw [hd] at htopics
  rw [← distinct_topics] at h ⊢
  rw [htopics]
  obtain ⟨-, ⟨rfl, -⟩ | ⟨hnone, -, -, rfl⟩⟩ := handleRequest_call hd
  · exact h
  · exact h.append hnone _

theorem adopt_all (h : Table.All P reg) (hinit : P (LockedTopic.init Registry.partitionsCount))
    (topics : Registry) : Table.All P (reg.adopt topics) := by
  intro x hx
  rcases List.mem_append.1 hx with hx | hx
  · exact h x hx
  · obtain ⟨y, -, rfl⟩ := List.mem_map.1 hx
    exact hinit

end LockedRegistry

namespace LockedBroker

def called (b : LockedBroker) (reg : LockedRegistry) (s : Nat) (session : Session) (opcode : UInt8)
    (name : Text) (call : Nat) (u : LockedTopic) : LockedBroker :=
  { b with registry := reg.update name u }.setSession s
    { session with state := .calling opcode name call }

/-- Everything that a step of the server can be: talk with a client, a call of a topic, and what
happens at a topic. -/
inductive LockedServerStep (b : LockedBroker) : LockedBrokerAction → LockedBroker → Prop where
  | talk (ha : a.onBroker = some x) (hx : b.broker.step x = some b'.broker)
      (hreg : b'.registry = b.registry) : LockedServerStep b a b'
  | call (hs : b.receiving s = some session) (hr : Rpc.receive session.input = .request f rest)
      (hd : handleRequest b.registry.topics env f = (topics, .call name op))
      (ht : (b.registry.adopt topics).getTopic name = some t)
      (hu : t.step requestHash (.invoke s op) = some u) :
      LockedServerStep b (.receive s env)
        (b.called (b.registry.adopt topics) s { session with input := rest } f.opcode name
          t.topic.calls.length u)
  | topic (ha : a.isInvoke = false) (ht : b.registry.getTopic name = some t)
      (hu : t.step requestHash a = some u) :
      LockedServerStep b (.topic name a) { b with registry := b.registry.update name u }

variable {b b' : LockedBroker} {session : Session} {s i : Nat} {name : Text} {t : LockedTopic}
  {P : LockedTopic → Prop}

theorem callTopic_broker (b : LockedBroker) (s : Nat) (session : Session) (opcode : UInt8)
    (name : Text) (op : Operation) : (b.callTopic s session opcode name op).map broker =
      b.broker.callTopic s session opcode name op := by
  rw [callTopic, Broker.callTopic, broker, LockedRegistry.getTopic_topics]
  cases b.registry.getTopic name with
  | none => rfl
  | some t =>
    simp only [Option.bind_some, Option.map_some, LockedTopic.step, Option.map_map]
    congr 1
    funext u
    simp only [Function.comp_apply, broker, setSession, Broker.setSession,
      LockedRegistry.topics_update]

theorem handle_broker (b : LockedBroker) (s : Nat) (session : Session) (env : HandlerEnv)
    (f : Frame) : (b.handle s session env f).map broker = b.broker.handle s session env f := by
  have hreg : b.broker.registry = b.registry.topics := rfl
  have hadopt := LockedRegistry.topics_adopt b.registry env f
  cases hd : handleRequest b.registry.topics env f with
  | mk topics d =>
    rw [hd] at hadopt
    rw [handle, Broker.handle, hreg, hd]
    cases d with
    | respond r =>
      simp only [Option.map_some, broker, setSession, Broker.setSession]
      rw [hadopt]
    | call n op =>
      have hcall := callTopic_broker { b with registry := b.registry.adopt topics } s session
        f.opcode n op
      rw [broker, hadopt] at hcall
      exact hcall
    | overflow | abort => rfl

theorem receive_broker (b : LockedBroker) (s : Nat) (env : HandlerEnv) :
    (b.step (.receive s env)).map broker = b.broker.step (.receive s env) := by
  have hrecv : b.broker.receiving s = b.receiving s := rfl
  rw [step, Broker.step, hrecv]
  cases b.receiving s with
  | none => rfl
  | some session =>
    simp only [Option.bind_some]
    cases Rpc.receive session.input with
    | request f rest => exact handle_broker b s _ env f
    | closed | badMagic | tooLarge => rfl

theorem reply_broker (b : LockedBroker) (s : Nat) :
    (b.step (.reply s)).map broker = b.broker.step (.reply s) := by
  have hsession : b.broker.sessions[s]? = b.sessions[s]? := rfl
  rw [step, Broker.step, hsession]
  cases b.sessions[s]? with
  | none => rfl
  | some session =>
    simp only [Option.bind_some]
    cases session.state with
    | receiving | closed => rfl
    | calling opcode name call =>
      have htopic : b.broker.registry.getTopic name =
          (b.registry.getTopic name).map LockedTopic.topic :=
        LockedRegistry.getTopic_topics b.registry name
      simp only [htopic, Option.bind_map, Function.comp_def]
      cases (b.registry.getTopic name).bind fun t => t.topic.calls[call]? with
      | none => rfl
      | some c =>
        simp only [Option.bind_some]
        cases c.pc <;> rfl

theorem lockedServerStep_receive (h : b.step (.receive s env) = some b') :
    LockedServerStep b (.receive s env) b' := by
  have hb : b.broker.step (.receive s env) = some b'.broker := by
    rw [← receive_broker, h, Option.map_some]
  obtain ⟨session, hs, h⟩ := Option.bind_eq_some_iff.1 h
  split at h
  · cases h
    exact .talk rfl hb rfl
  · cases h
    exact .talk rfl hb rfl
  · cases h
    exact .talk rfl hb rfl
  · rename_i f rest hr
    cases hd : handleRequest b.registry.topics env f with
    | mk topics d =>
      rw [handle, hd] at h
      cases d with
      | respond r =>
        obtain ⟨rfl, -⟩ := handleRequest_respond hd
        cases h
        exact .talk rfl hb (LockedRegistry.adopt_same b.registry)
      | call name op =>
        obtain ⟨t, ht, h⟩ := Option.bind_eq_some_iff.1 h
        obtain ⟨u, hu, rfl⟩ := Option.map_eq_some_iff.1 h
        exact .call hs hr hd ht hu
      | overflow => cases h
      | abort => cases h

theorem lockedServerStep_reply (h : b.step (.reply s) = some b') :
    LockedServerStep b (.reply s) b' := by
  have hb : b.broker.step (.reply s) = some b'.broker := by
    rw [← reply_broker, h, Option.map_some]
  obtain ⟨session, hs, h⟩ := Option.bind_eq_some_iff.1 h
  split at h
  · obtain ⟨c, -, h⟩ := Option.bind_eq_some_iff.1 h
    split at h
    · cases h
      exact .talk rfl hb rfl
    · cases h
  · cases h

theorem step_lockedServer (h : b.step a = some b') : LockedServerStep b a b' := by
  cases a with
  | connect input =>
    cases h
    exact .talk rfl rfl rfl
  | receive s env => exact lockedServerStep_receive h
  | topic name a =>
    obtain ⟨ha, h⟩ := Option.ite_none_left_eq_some.1 h
    obtain ⟨t, ht, h⟩ := Option.bind_eq_some_iff.1 h
    obtain ⟨u, hu, rfl⟩ := Option.map_eq_some_iff.1 h
    exact .topic (Bool.eq_false_of_not_eq_true ha) ht hu
  | reply s => exact lockedServerStep_reply h

def WakesSafely (b : LockedBroker) : LockedBrokerAction → Prop
  | .topic name a => ∀ t, b.registry.getTopic name = some t → LockedTopic.WakesSafely t a
  | _ => True

instance (b : LockedBroker) (a : LockedBrokerAction) : Decidable (WakesSafely b a) :=
  match a with
  | .topic name a => inferInstanceAs
      (Decidable (∀ t, b.registry.getTopic name = some t → LockedTopic.WakesSafely t a))
  | .connect _ | .receive _ _ | .reply _ => isTrue trivial

theorem distinct_step (h : Table.Distinct b.registry) (hs : b.step a = some b') :
    Table.Distinct b'.registry := by
  cases step_lockedServer hs with
  | talk _ _ hreg =>
    rw [hreg]
    exact h
  | call _ _ hd => exact Table.Distinct.update (LockedRegistry.distinct_adopt h hd) _ _
  | topic => exact Table.Distinct.update h _ _

/-- The rule for topics with their mutexes: what holds of a new topic and is kept by its steps
holds of every topic of the server. -/
theorem topics_rule {C : LockedTopic → LockedAction → Prop}
    (hinit : P (LockedTopic.init Registry.partitionsCount))
    (keep : ∀ t a u, P t → C t a → t.step requestHash a = some u → P u)
    (hinvoke : ∀ t client op, C t (.invoke client op)) (h : Table.All P b.registry)
    (hC : ∀ name x t, a = .topic name x → b.registry.getTopic name = some t → C t x)
    (hs : b.step a = some b') : Table.All P b'.registry := by
  cases step_lockedServer hs with
  | talk _ _ hreg =>
    rw [hreg]
    exact h
  | @call s _ _ _ _ topics name op t u _ _ _ ht hu =>
    have hadopt := LockedRegistry.adopt_all h hinit topics
    have ht' := Table.All.lookup hadopt ht
    exact Table.All.update hadopt name (keep t _ u ht' (hinvoke t s op) hu)
  | @topic name t a u _ ht hu =>
    have ht' := Table.All.lookup h ht
    exact Table.All.update h name (keep t a u ht' (hC name a t rfl ht) hu)

structure Orderly (b : LockedBroker) : Prop where
  topics : Table.All LockedTopic.Orderly b.registry
  distinct : Table.Distinct b.registry

theorem orderly_init : Orderly {} where
  topics := fun _ hx => by cases hx
  distinct := List.nodup_nil

theorem Orderly.getTopic (h : Orderly b) (ht : b.registry.getTopic name = some t) :
    LockedTopic.Orderly t := Table.All.lookup h.topics ht

theorem getTopic_broker (ht : b.registry.getTopic name = some t) :
    b.broker.registry.getTopic name = some t.topic := by
  rw [broker, LockedRegistry.getTopic_topics, ht, Option.map_some]

theorem getTopic_locked {u : Topic} (hu : b.broker.registry.getTopic name = some u) :
    ∃ t, b.registry.getTopic name = some t ∧ t.topic = u := by
  rw [broker, LockedRegistry.getTopic_topics] at hu
  exact Option.map_eq_some_iff.1 hu

theorem Orderly.advanceTopic {u : LockedTopic} (h : Orderly b)
    (ht : b.registry.getTopic name = some t) (hu : t.step requestHash a = some u)
    (ha : a.onTopic = some x) : b.broker.advanceTopic name x =
      some (broker { b with registry := b.registry.update name u }) := by
  have ho := h.getTopic ht
  have hstep := LockedTopic.step_topic ho.attending ho.excludes ho.sound hu ha
  rw [Broker.advanceTopic, getTopic_broker ht, Option.bind_some, hstep, Option.map_some, broker,
    broker, LockedRegistry.topics_update]

theorem Orderly.move (h : Orderly b) (hs : b.step a = some b') (ha : a.onBroker = some x) :
    b.broker.step x = some b'.broker := by
  cases a with
  | connect input =>
    cases ha
    cases hs
    rfl
  | receive s env =>
    cases ha
    rw [← receive_broker, hs, Option.map_some]
  | reply s =>
    cases ha
    rw [← reply_broker, hs, Option.map_some]
  | topic name a =>
    cases step_lockedServer hs with
    | talk hb hx =>
      cases hb.symm.trans ha
      exact hx
    | topic hinvoke ht hu =>
      cases a with
      | invoke => cases hinvoke
      | request | wake => cases ha
      | advance i | failStore i kept =>
        cases ha
        exact h.advanceTopic ht hu rfl

theorem Orderly.quiet (h : Orderly b) (hs : b.step a = some b') (ha : a.onBroker = none) :
    b'.broker = b.broker := by
  cases step_lockedServer hs with
  | talk hb => cases ha.symm.trans hb
  | call => cases ha
  | @topic name t a u hinvoke ht hu =>
    have hsame : u.topic = t.topic := by
      cases a with
      | invoke => cases hinvoke
      | advance | failStore => cases ha
      | request | wake => exact LockedTopic.step_quiet hu rfl
    have hupdate :=
      Table.update_same (LockedRegistry.distinct_topics.2 h.distinct) (getTopic_broker ht)
    rw [broker, LockedRegistry.topics_update, hsame]
    exact congrArg (Broker.mk · b.sessions) hupdate

theorem Orderly.step (h : Orderly b) (hw : WakesSafely b a) (hs : b.step a = some b') :
    Orderly b' where
  topics := by
    apply topics_rule (C := LockedTopic.WakesSafely) (LockedTopic.orderly_init _) _ _ h.topics _ hs
    · intro t a u ht hwake hu
      exact ht.step hwake hu
    · exact fun _ _ _ => trivial
    · rintro name x t rfl ht
      exact hw t ht
  distinct := distinct_step h.distinct hs

theorem orderly_of_exec (hr : exec step {} acts = some b) (hw : AllSteps step WakesSafely {} acts) :
    Orderly b :=
  exec_invariant_of_allSteps (fun _ _ _ h hw hs => h.step hw hs) orderly_init hw hr

def clientEvents (name : Text) (b : LockedBroker) (a : LockedBrokerAction) :
    List (Event (Fifo.Op Text) Response) :=
  (a.onBroker.map (b.broker.clientEvents name)).getD []

section
variable (hr : exec step {} acts = some b) (hw : AllSteps step WakesSafely {} acts)
include hr hw

/-- A server whose topics take turns by the program's mutexes serves its sessions as one with
perfect locks would. -/
theorem refines_broker :
    exec Broker.step {} (acts.filterMap LockedBrokerAction.onBroker) = some b.broker :=
  exec_project (fun _ _ _ h hw hs => h.step hw hs) (fun _ _ _ h _ hs ha => h.quiet hs ha)
    (fun _ _ _ _ h _ hs ha => h.move hs ha) orderly_init hw hr

theorem collect_broker (name : Text) : collect step (clientEvents name) {} acts =
    collect Broker.step (Broker.clientEvents name) {}
      (acts.filterMap LockedBrokerAction.onBroker) :=
  collect_project (fun _ _ _ h hw hs => h.step hw hs) (fun _ _ _ h _ hs ha => h.quiet hs ha)
    (fun _ _ _ _ h _ hs ha => h.move hs ha) orderly_init hw hr

end

/-- Two clients push to one topic. -/
def racing : List LockedBrokerAction :=
  let env : HandlerEnv := ⟨true, 0, fun _ => 0, .replicate 5 0⟩
  let call (i : Nat) : List LockedBrokerAction :=
    .topic [97] (.advance i) :: .topic [97] (.request i) ::
      List.replicate 5 (.topic [97] (.advance i))
  .connect Audited.pushFrame :: .receive 0 env :: .receive 1 env :: .topic [97] (.request 0) ::
    .topic [97] (.request 1) ::
    (call 0 ++ call 1 ++ [.reply 0, .reply 1, .receive 0 env, .receive 1 env])

/-- The clients of a topic whose calls take turns by the program's mutexes see a FIFO queue, as
long as no turn of a wake-up loop lets a reader in beside a writer. -/
theorem clients_see_fifo (hr : exec step {} acts = some b)
    (hw : AllSteps step WakesSafely {} acts) (name : Text) :
    ∃ order q, IsCompletion queueObject (collect step (clientEvents name) {} acts) order q ∧
      (b.broker.Answered → q = (b.broker.topicAt name).texts 0) := by
  rw [collect_broker hr hw name]
  exact (Broker.seen_of_exec (refines_broker hr hw) name).explained

theorem clients_see_fifo_racing : ∃ b order,
    exec step {} (.connect Audited.pushFrame :: racing) = some b ∧ IsCompletion queueObject
      (collect step (clientEvents [97]) {} (.connect Audited.pushFrame :: racing)) order
        ((b.broker.topicAt [97]).texts 0) := by
  have hr : (exec step {} (.connect Audited.pushFrame :: racing)).map
      (fun b => b.sessions.map Session.pending) = some [[], []] := by decide +kernel
  obtain ⟨b, hr, hp⟩ := Option.map_eq_some_iff.1 hr
  have ha : b.broker.Answered := by
    intro session hs
    have hm : session.pending ∈ [[], []] := hp ▸ List.mem_map_of_mem hs
    simpa using hm
  obtain ⟨order, q, hc, hq⟩ := clients_see_fifo hr (by decide +kernel) [97]
  exact ⟨b, order, hr, hq ha ▸ hc⟩

end LockedBroker
end Noctua.Rpc
