import Noctua.Rpc.Conversation
import Noctua.Rpc.Independence
import Noctua.Topic.Linearizable

namespace Noctua.Rpc
open Transition
set_option autoImplicit true

def Frame.operation (f : Frame) : Fifo.Op Text :=
  if f.opcode = Opcode.push then .push f.message
  else if f.opcode = Opcode.pull then .read
  else .remove f.message

section
variable {reg reg' : Registry} {env : HandlerEnv} {f : Frame}

theorem handlePush_operation (h : handlePush reg env f = (reg', .call name op))
    (hop : f.opcode = Opcode.push) : op.fifo = f.operation := by
  rw [Frame.operation, if_pos hop]
  rw [handlePush] at h
  split at h
  · cases h
  · split at h
    · cases h
    · obtain ⟨-, rfl⟩ := callWithRequest_eq_call (Prod.mk.inj h).2
      exact congrArg Fifo.Op.push (requestAt_message env f)

theorem handleDelete_operation (h : handleDelete reg env f = .call name op)
    (hop : f.opcode = Opcode.delete) : op.fifo = f.operation := by
  rw [Frame.operation, hop, if_neg (by decide), if_neg (by decide)]
  rw [handleDelete] at h
  split at h
  · cases h
  · split at h
    · cases h
    · split at h
      · cases h
      · obtain ⟨-, rfl⟩ := callWithRequest_eq_call h
        exact congrArg Fifo.Op.remove (requestAt_message env f)

theorem handleRequest_operation (h : handleRequest reg env f = (reg', .call name op)) :
    op.fifo = f.operation := by
  have hcall := h
  rw [handleRequest] at h
  split at h
  · exact handlePush_operation h ‹_›
  · rename_i hpush
    split at h
    · rename_i hpull
      rw [handleRequest_call_pull hcall hpull, Frame.operation, if_neg hpush, if_pos hpull]
      rfl
    · split at h
      · exact handleDelete_operation (Prod.mk.inj h).2 ‹_›
      · cases h

end

namespace Broker

/-- The topic of a name, empty until a PUSH creates it. -/
def topicAt (b : Broker) (name : Text) : Topic :=
  (b.registry.getTopic name).getD (Topic.init Registry.partitionsCount)

/-- What a session calls the topic of a name for when it takes its next request. -/
def calledBy (b : Broker) (name : Text) (s : Nat) (env : HandlerEnv) : List (Frame × Operation) :=
  match b.receiving s with
  | some session =>
    match Rpc.receive session.input with
    | .request f _ =>
      match (handleRequest b.registry env f).2 with
      | .call n op => if n = name then [(f, op)] else []
      | _ => []
    | _ => []
  | none => []

def onTopic (name : Text) (b : Broker) : BrokerAction → List TopicAction
  | .receive s env => (b.calledBy name s env).map fun x => .invoke s x.2
  | .advance n i => if n = name then [.advance i] else []
  | .failStore n i kept => if n = name then [.failStore i kept] else []
  | _ => []

/-- What a step of the server is for the topic of a name. -/
inductive TopicTurn (name : Text) (b b' : Broker) (a : BrokerAction) : Prop where
  | quiet (hon : b.onTopic name a = []) (ht : b'.topicAt name = b.topicAt name)
  | invoked (s : Nat) (env : HandlerEnv) (f : Frame) (op : Operation) (session : Session)
      (rest : List UInt8) (ha : a = .receive s env) (hs : b.receiving s = some session)
      (hr : Rpc.receive session.input = .request f rest)
      (hd : handleRequest b.registry env f = (reg, .call name op))
      (hc : b.calledBy name s env = [(f, op)])
      (ht : (b.topicAt name).step requestHash (.invoke s op) = some (b'.topicAt name))
      (hst : b'.sessions[s]? = some { session with
        input := rest, state := .calling f.opcode name (b.topicAt name).calls.length })
  | moved (i : Nat) (ta : TopicAction) (ha : ta = .advance i ∨ ∃ kept, ta = .failStore i kept)
      (hon : b.onTopic name a = [ta]) (hs : b'.sessions = b.sessions)
      (hl : ∀ s, loopEvents s b a = [])
      (ht : (b.topicAt name).step requestHash ta = some (b'.topicAt name))

variable {b b' : Broker} {a : BrokerAction} {name : Text}

theorem topicAt_of_getTopic {t : Topic} (h : b.registry.getTopic name = some t) :
    b.topicAt name = t := by
  rw [topicAt, h]
  rfl

theorem topicAt_update_self {reg : Registry} {t : Topic} (ht : reg.getTopic name = some t)
    (hb : b.registry = reg.update name u) : b.topicAt name = u :=
  topicAt_of_getTopic (hb ▸ Registry.getTopic_update_self ht u)

theorem topicAt_update_ne {reg : Registry} (hne : name ≠ n) (hb : b'.registry = reg.update n u)
    (hr : reg.getTopic name = b.registry.getTopic name) : b'.topicAt name = b.topicAt name := by
  rw [topicAt, hb, Registry.getTopic_update_ne hne, hr, topicAt]

theorem topicAt_of_call {reg : Registry} {env : HandlerEnv} {f : Frame} {t : Topic}
    (hd : handleRequest b.registry env f = (reg, .call n op)) (ht : reg.getTopic n = some t) :
    b.topicAt n = t ∧ ∀ name, name ≠ n → reg.getTopic name = b.registry.getTopic name := by
  obtain ⟨-, ⟨rfl, -⟩ | ⟨hnone, -, -, rfl⟩⟩ := handleRequest_call hd
  · exact ⟨topicAt_of_getTopic ht, fun _ _ => rfl⟩
  · rw [Registry.getTopic_append_self hnone] at ht
    cases ht
    refine ⟨?_, fun name hne => Registry.getTopic_append_ne hne⟩
    rw [topicAt, hnone]
    rfl

theorem calledBy_call {reg : Registry} {env : HandlerEnv} {f : Frame} {session : Session}
    (hs : b.receiving s = some session) (hr : Rpc.receive session.input = .request f rest)
    (hd : handleRequest b.registry env f = (reg, .call n op)) :
    b.calledBy name s env = if n = name then [(f, op)] else [] := by
  simp only [calledBy, hs, hr, hd]

theorem ServerStep.turn (h : ServerStep b a b') (name : Text) : TopicTurn name b b' a := by
  cases h with
  | connect => exact .quiet rfl rfl
  | closed hs hr | badMagic hs hr | tooLarge hs hr =>
    refine .quiet ?_ rfl
    simp only [onTopic, calledBy, hs, hr]
    rfl
  | answered hs hr hd =>
    refine .quiet ?_ rfl
    simp only [onTopic, calledBy, hs, hr, hd]
    rfl
  | @called s session f rest env reg n op t u hs hr hd ht hu =>
    obtain ⟨hat, hother⟩ := topicAt_of_call hd ht
    have hcalled : b.calledBy name s env = if n = name then [(f, op)] else [] :=
      calledBy_call hs hr hd
    by_cases hne : n = name
    · subst hne
      have hlt := (List.getElem?_eq_some_iff.1 (receiving_eq_some.1 hs).1).1
      refine .invoked s env f op session rest rfl hs hr hd (hcalled.trans (if_pos rfl)) ?_ ?_
      · rw [topicAt_update_self (b := b.called ..) ht rfl, hat]
        exact hu
      · rw [hat]
        exact List.getElem?_set_self hlt
    · refine .quiet ?_ (topicAt_update_ne (Ne.symm hne) rfl (hother name (Ne.symm hne)))
      rw [onTopic, hcalled, if_neg hne]
      rfl
  | @advance n t i u ht hu =>
    by_cases hne : n = name
    · subst hne
      refine .moved i _ (.inl rfl) (if_pos rfl) rfl (fun _ => rfl) ?_
      rw [topicAt_update_self (b := b.advanced ..) ht rfl, topicAt_of_getTopic ht]
      exact hu
    · exact .quiet (if_neg hne) (topicAt_update_ne (Ne.symm hne) rfl rfl)
  | @failStore n t i kept u ht hu =>
    by_cases hne : n = name
    · subst hne
      refine .moved i _ (.inr ⟨kept, rfl⟩) (if_pos rfl) rfl (fun _ => rfl) ?_
      rw [topicAt_update_self (b := b.advanced ..) ht rfl, topicAt_of_getTopic ht]
      exact hu
    · exact .quiet (if_neg hne) (topicAt_update_ne (Ne.symm hne) rfl rfl)
  | reply => exact .quiet rfl rfl

theorem TopicTurn.exec_onTopic (h : TopicTurn name b b' a) :
    exec (Topic.step requestHash) (b.topicAt name) (b.onTopic name a) =
      some (b'.topicAt name) := by
  cases h with
  | quiet hon ht =>
    rw [hon, ht]
    rfl
  | invoked s env f op session rest ha hs hr hd hc ht =>
    subst ha
    rw [onTopic, hc]
    exact exec_cons_some.2 ⟨_, ht, rfl⟩
  | moved i ta ha hon hs hl ht =>
    rw [hon]
    exact exec_cons_some.2 ⟨_, ht, rfl⟩

/-- In every run of the server each topic makes a run of its own, whatever the sessions ask of
the others. -/
theorem topic_runs (hr : exec step {} acts = some b) (name : Text) :
    exec (Topic.step requestHash) (Topic.init Registry.partitionsCount)
      (collect step (onTopic name) {} acts) = some (b.topicAt name) := by
  have keep (b a b') (es : List TopicAction)
      (h : exec (Topic.step requestHash) (Topic.init Registry.partitionsCount) es =
        some (b.topicAt name)) (hs : step b a = some b') :
      exec (Topic.step requestHash) (Topic.init Registry.partitionsCount)
        (es ++ b.onTopic name a) = some (b'.topicAt name) := by
    rw [exec_append, h]
    exact ((step_server hs).turn name).exec_onTopic
  have start : exec (Topic.step requestHash) (Topic.init Registry.partitionsCount) [] =
      some (({} : Broker).topicAt name) := rfl
  exact collect_invariant (J := fun b es => exec (Topic.step requestHash)
    (Topic.init Registry.partitionsCount) es = some (b.topicAt name)) _ keep start hr

end Broker
end Noctua.Rpc
