import Noctua.Library.Deferred
import Noctua.Rpc.DeleteAnswer
import Noctua.Rpc.TopicRuns

namespace Noctua
open Transition Linearization
set_option autoImplicit true

theorem Pc.decided_finished {pc : Pc} (h : pc.isFinished = true) : pc.decided = false := by
  cases pc <;> first | rfl | cases h

namespace Rpc

def queueOpcode : Fifo.Op Text → UInt8
  | .push _ => Opcode.push
  | .read => Opcode.pull
  | .remove _ => Opcode.delete

/-- The response that says what the queue answered. -/
def queueResponse (op : Fifo.Op Text) : Fifo.Res Text → Response
  | .pushed | .removed _ => okResponse (queueOpcode op)
  | .front none => errorResponse (queueOpcode op) .emptyPartition "No messages in partition"
  | .front (some text) => dataResponse (queueOpcode op) text

/-- A topic as its clients see it: a list that a PUSH appends to, whose first message a PULL
returns, and from which a DELETE that names the first message drops it. -/
def queueObject : SeqObject (List Text) (Fifo.Op Text) Response :=
  (Fifo.object Text).rephrase queueResponse

theorem replyTo_queueResponse (op : Operation) (a : Answer) :
    replyTo (opcodeOf op) a = queueResponse op.fifo a.fifo := by
  have ho : opcodeOf op = queueOpcode op.fifo := by cases op <;> rfl
  rw [ho]
  cases a with
  | message m => cases m <;> rfl
  | pushed | removed => rfl

namespace Broker

/-- The response that session `s` sends for its call of topic `name`. -/
def answeredBy (b : Broker) (name : Text) (s : Nat) : List (Event (Fifo.Op Text) Response) :=
  match b.sessions[s]? with
  | some session =>
    match session.state with
    | .calling opcode n i =>
      if n = name then
        match b.callOf n i with
        | some c =>
          match c.pc with
          | .finished a => [.respond i c.operation.fifo (replyTo opcode a)]
          | _ => []
        | none => []
      else []
    | _ => []
  | none => []

/-- The requests for topic `name` that are taken, numbered in their order, and the responses to
them that are sent. -/
def clientEvents (name : Text) (b : Broker) :
    BrokerAction → List (Event (Fifo.Op Text) Response)
  | .receive s env => (b.calledBy name s env).map fun x =>
      .invoke (b.topicAt name).calls.length x.1.operation
  | .reply s => b.answeredBy name s
  | _ => []

variable {b b' : Broker} {a : BrokerAction} {name : Text}

theorem attended_init : ({} : Broker).Attended where
  serves _ _ _ _ _ hs := nomatch hs
  waits _ _ _ hc := nomatch hc

theorem callOf_eq_topicAt (b : Broker) (name : Text) (i : Nat) :
    b.callOf name i = (b.topicAt name).calls[i]? := by
  rw [callOf, topicAt]
  cases b.registry.getTopic name <;> rfl

theorem partition_zero (h : exec (Topic.step requestHash) (Topic.init Registry.partitionsCount)
    acts = some t) {c : Call} {i : Nat} (hc : t.calls[i]? = some c) : c.partition = 0 := by
  have hr := (Topic.coherent_of_exec h).inRange i c hc
  rw [Topic.storage_length_of_exec h, Registry.partitionsCount] at hr
  exact UInt16.toNat.inj (Nat.lt_one_iff.1 hr)

/-- The topic's own history, and how its responses reach the clients. -/
structure Seen (name : Text) (b : Broker) (es : List (Event (Fifo.Op Text) Response)) : Prop where
  attended : b.Attended
  runs : ∃ acts, exec (Topic.step requestHash) (Topic.init Registry.partitionsCount) acts =
    some (b.topicAt name)
  deferred : Deferred queueResponse ((b.topicAt name).history 0) es

theorem seen_init (name : Text) : Seen name {} [] where
  attended := attended_init
  runs := ⟨[], rfl⟩
  deferred := .nil

theorem answeredBy_cases (b : Broker) (name : Text) (s : Nat) : b.answeredBy name s = [] ∨
    ∃ session opcode i c a, b.sessions[s]? = some session ∧
      session.state = .calling opcode name i ∧ b.callOf name i = some c ∧ c.pc = .finished a ∧
        b.answeredBy name s = [.respond i c.operation.fifo (replyTo opcode a)] := by
  cases hs : b.sessions[s]? with
  | none =>
    simp only [answeredBy, hs, true_or]
  | some session =>
    cases hst : session.state with
    | calling opcode n i =>
      by_cases hn : n = name
      · subst hn
        cases hc : b.callOf n i with
        | none => simp only [answeredBy, hs, hst, hc, ite_self, true_or]
        | some c =>
          cases hpc : c.pc with
          | finished a =>
            refine .inr ⟨session, opcode, i, c, a, rfl, hst, hc, hpc, ?_⟩
            simp only [answeredBy, hs, hst, hc, hpc, if_true]
          | _ => simp only [answeredBy, hs, hst, hc, hpc, ite_self, true_or]
      · simp only [answeredBy, hs, hst, if_neg hn, true_or]
    | _ => simp only [answeredBy, hs, hst, true_or]

theorem Seen.reply (h : Seen name b es) (s : Nat) :
    Deferred queueResponse ((b.topicAt name).history 0) (es ++ b.answeredBy name s) := by
  rcases b.answeredBy_cases name s with he | ⟨session, opcode, i, c, a, hs, hst, hc, hpc, he⟩
  · rw [he, List.append_nil]
    exact h.deferred
  · obtain ⟨acts, hr⟩ := h.runs
    obtain ⟨d, hd, hop⟩ := h.attended.serves s session opcode name i hs hst
    obtain rfl := Option.some.inj (hc.symm.trans hd)
    have hcall := (b.callOf_eq_topicAt name i).symm.trans hc
    have hret := (Topic.follows_of_exec hr).1.returned i c a hcall hpc
    rw [partition_zero hr hcall] at hret
    rw [he, ← hop, replyTo_queueResponse]
    exact .deliver h.deferred hret

theorem history_moved {t u : Topic} (h : t.step requestHash ta = some u)
    (ha : ta = .advance i ∨ ∃ kept, ta = .failStore i kept) (hd : Deferred f (t.history 0) es) :
    Deferred f (u.history 0) es := by
  obtain ⟨_, _, rfl, -⟩ | ⟨i, c, pc, e, -, -, -, rfl⟩ := Topic.step_cases h
  · rcases ha with ha | ⟨kept, ha⟩ <;> cases ha
  · rw [Topic.history_advanced]
    split
    · cases e with
      | respond => exact .respond _ _ _ hd
      | _ => exact (List.append_nil _).symm ▸ hd
    · exact (List.append_nil _).symm ▸ hd

theorem Seen.step (h : Seen name b es) (hs : b.step a = some b') :
    Seen name b' (es ++ b.clientEvents name a) := by
  have hturn := (step_server hs).turn name
  obtain ⟨acts, hr⟩ := h.runs
  have hr' : exec (Topic.step requestHash) (Topic.init Registry.partitionsCount)
      (acts ++ b.onTopic name a) = some (b'.topicAt name) := by
    rw [exec_append, hr]
    exact hturn.exec_onTopic
  refine ⟨h.attended.step hs, ⟨_, hr'⟩, ?_⟩
  cases hturn with
  | quiet hon ht =>
    rw [ht]
    cases a with
    | receive s env =>
      rw [clientEvents, List.map_eq_nil_iff.1 hon]
      exact (List.append_nil es).symm ▸ h.deferred
    | reply s => exact h.reply s
    | _ => exact (List.append_nil es).symm ▸ h.deferred
  | invoked s env f op session rest ha hs hr hd hc ht =>
    subst ha
    obtain ⟨-, hu⟩ := Topic.invoke_cases ht
    have hzero := partition_zero hr' (hu ▸ Topic.calls_invoked.2 (.inr ⟨rfl, rfl⟩))
    rw [clientEvents, hc, hu, Topic.history_invoked, if_pos hzero,
      handleRequest_operation hd]
    exact .invoke _ _ h.deferred
  | moved i ta ha hon hs hl ht =>
    have he : b.clientEvents name a = [] := by
      cases a with
      | reply => cases hon
      | receive s env =>
        obtain ⟨x, -, hx⟩ := List.map_eq_singleton_iff.1 hon
        rcases ha with rfl | ⟨kept, rfl⟩ <;> cases hx
      | _ => rfl
    rw [he, List.append_nil]
    exact history_moved ht ha h.deferred

theorem seen_of_exec (hr : exec step {} acts = some b) (name : Text) :
    Seen name b (collect step (clientEvents name) {} acts) :=
  collect_invariant (J := Seen name) (clientEvents name) (fun _ _ _ _ h hs => h.step hs)
    (seen_init name) hr

/-- Once every request is answered no call of a topic is under way. -/
theorem Attended.finished_of_answered (h : b.Attended) (ha : b.Answered)
    (hc : b.callOf name i = some c) : c.pc.isFinished = true := by
  by_contra hn
  obtain ⟨s, session, hs, hst⟩ := h.waits name i c hc (Bool.eq_false_of_not_eq_true hn)
  have hp := ha session (List.mem_of_getElem? hs)
  rw [pending_calling hst] at hp
  cases hp

theorem Seen.explained (h : Seen name b es) :
    ∃ order q, IsCompletion queueObject es order q ∧
      (b.Answered → q = (b.topicAt name).texts 0) := by
  obtain ⟨ts, ht⟩ := h.runs
  obtain ⟨hrec, hfol⟩ := Topic.follows_of_exec ht
  have explained {q : List Text}
      (hl : Legal (Fifo.object Text) [] (responses ((b.topicAt name).history 0)) q) :=
    (IsLinearization.of_responses (hrec.wellFormed 0) hl).deferred (hrec.wellFormed 0) h.deferred
  by_cases ha : b.Answered
  · have hquiet (i : Nat) (c : Call) (hc : (b.topicAt name).calls[i]? = some c)
        (_ : c.partition = 0) : c.pc.decided = false := by
      rw [← callOf_eq_topicAt] at hc
      exact Pc.decided_finished (h.attended.finished_of_answered ha hc)
    exact ⟨_, _, explained (hfol.settled 0 hquiet), fun _ => rfl⟩
  · obtain ⟨q, hl⟩ := hfol.legal 0
    exact ⟨_, q, explained hl, fun h => absurd h ha⟩

/-- Whatever bytes the clients send and however the sessions and the calls take turns, the
clients of a topic see a FIFO queue: the requests that were answered, and some of those that were
not yet, take effect one at a time between the taking of the request and its response, and once
all are answered the partition holds what they leave. -/
theorem clients_see_queue (hr : exec step {} acts = some b) (name : Text) :
    ∃ order q, IsCompletion queueObject (collect step (clientEvents name) {} acts) order q ∧
      (b.Answered → q = (b.topicAt name).texts 0) := (seen_of_exec hr name).explained

/-- A PUSH of "b" to the topic "a", and a PULL by another client that is answered before it. -/
def overlapping : List BrokerAction :=
  let env : HandlerEnv := ⟨true, 0, fun _ => 0, .replicate 5 0⟩
  [.connect Audited.pushFrame, .connect [0x55, 0x43, 0x4F, 0x4E, 2, 0, 1, 0, 0, 0, 0, 0, 97],
    .receive 0 env, .advance [97] 0, .receive 1 env] ++
    List.replicate 5 (.advance [97] 0) ++ List.replicate 3 (.advance [97] 1) ++
    [.reply 1, .reply 0]

theorem clients_see_queue_overlapping : ∃ b order, exec step {} overlapping = some b ∧
    IsCompletion queueObject (collect step (clientEvents [97]) {} overlapping) order
      ((b.topicAt [97]).texts 0) := by
  have hr : (exec step {} overlapping).map (fun b => b.sessions.map Session.pending) =
      some [[], []] := by decide +kernel
  obtain ⟨b, hr, hp⟩ := Option.map_eq_some_iff.1 hr
  have ha : b.Answered := by
    intro session hs
    have hm : session.pending ∈ [[], []] := hp ▸ List.mem_map_of_mem hs
    simpa using hm
  obtain ⟨order, q, hc, hq⟩ := clients_see_queue hr [97]
  exact ⟨b, order, hr, hq ha ▸ hc⟩

end Broker
end Rpc
end Noctua
