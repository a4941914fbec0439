import Noctua.Rpc.LockedServer

namespace Noctua.Rpc
open Transition Potential
set_option autoImplicit true

namespace LockedRegistry
variable {reg : LockedRegistry} {name : Text}

def stepsLeft (reg : LockedRegistry) : Nat := (reg.map fun x => x.2.remaining).sum

theorem stepsLeft_update (hd : Table.Distinct reg) (ht : reg.getTopic name = some t)
    (u : LockedTopic) :
    (reg.update name u).stepsLeft + t.remaining = reg.stepsLeft + u.remaining :=
  Table.sum_update LockedTopic.remaining hd ht u

theorem remaining_init (n : Nat) : (LockedTopic.init n).remaining = 0 := by
  simp [LockedTopic.remaining, LockedTopic.callsLeft, LockedTopic.turnsLeft, LockedTopic.init,
    Topic.init, LockSystem.turns]

theorem stepsLeft_adopt (reg : LockedRegistry) (topics : Registry) :
    (reg.adopt topics).stepsLeft = reg.stepsLeft := by
  simp only [stepsLeft, adopt, List.map_append, List.sum_append, List.map_map,
    Function.comp_def, remaining_init, List.map_const', List.sum_replicate_nat, Nat.mul_zero,
    Nat.add_zero]

end LockedRegistry

namespace LockedBroker
variable {b b' : LockedBroker} {a : LockedBrokerAction} {session : Session} {s : Nat}
  {name : Text} {t : LockedTopic}

def stepsLeft (b : LockedBroker) : Nat :=
  b.registry.stepsLeft + 2 * (b.sessions.map Session.stepsLeft).sum

/-- A byte pays for two steps: the twelve of a header for the `receive`, the fifteen steps of a
`remove` or `read` with its mutexes, and the response. -/
def paidSteps (a : LockedBrokerAction) : Nat :=
  match a.onBroker with
  | some x => 2 * Broker.paidSteps x
  | none => 0

theorem paidSteps_topic (name : Text) (a : LockedAction) : paidSteps (.topic name a) = 0 := by
  cases a <;> rfl

structure Attending (b : LockedBroker) : Prop where
  topics : Table.All (fun t => t.Attending ∧ t.Sound) b.registry
  distinct : Table.Distinct b.registry

theorem attending_init : Attending {} where
  topics := fun _ hx => by cases hx
  distinct := List.nodup_nil

theorem Attending.step (h : Attending b) (hs : b.step a = some b') : Attending b' where
  topics := by
    apply topics_rule (C := fun _ _ => True)
      ⟨LockedTopic.attending_init _, LockedTopic.sound_init _⟩ _ _ h.topics _ hs
    · intro t a u ht _ hu
      exact ⟨ht.1.step ht.2 hu, ht.2.step hu⟩
    · exact fun _ _ _ => trivial
    · exact fun _ _ _ _ _ => trivial
  distinct := distinct_step h.distinct hs

theorem stepsLeft_called {topics : Registry} {env : HandlerEnv} {f : Frame} {op : Operation}
    (h : Attending b) (hs : b.receiving s = some session)
    (hr : Rpc.receive session.input = .request f rest)
    (hd : handleRequest b.registry.topics env f = (topics, .call name op))
    (ht : (b.registry.adopt topics).getTopic name = some t)
    (hu : t.step requestHash (.invoke s op) = some u) :
    (b.called (b.registry.adopt topics) s { session with input := rest } f.opcode name
      t.topic.calls.length u).stepsLeft + 1 ≤ b.stepsLeft := by
  have hbroker : b.broker.receiving s = some session := hs
  obtain ⟨hs, hst⟩ := Broker.receiving_eq_some.1 hbroker
  change b.sessions[s]? = some session at hs
  have hlen := receive_request_length hr
  have hdistinct := LockedRegistry.distinct_adopt h.distinct hd
  have hattending := Table.All.lookup
    (LockedRegistry.adopt_all h.topics ⟨LockedTopic.attending_init _, LockedTopic.sound_init _⟩
      topics) ht
  have hcall := LockedTopic.remaining_step hattending.1 hu
  have hupdate := LockedRegistry.stepsLeft_update hdistinct ht u
  rw [LockedRegistry.stepsLeft_adopt] at hupdate
  have hsum := sum_map_set (y := { session with
    input := rest, state := .calling f.opcode name t.topic.calls.length }) Session.stepsLeft hs
  rw [Session.stepsLeft_receiving hst, Session.stepsLeft_calling rfl] at hsum
  have h12 : sizeofRequestHeader = 12 := rfl
  have h15 : LockedTopic.cost (.invoke s op) = 15 := rfl
  simp only [stepsLeft, called, setSession]
  dsimp only at hsum
  omega

theorem stepsLeft_step (h : Attending b) (hs : b.step a = some b') :
    b'.stepsLeft + 1 ≤ b.stepsLeft + paidSteps a := by
  cases step_lockedServer hs with
  | talk ha hx hreg =>
    have hone := Broker.stepsLeft_step (LockedRegistry.distinct_topics.2 h.distinct) hx
    have htopics : b'.broker.registry = b.broker.registry := congrArg LockedRegistry.topics hreg
    rw [Broker.stepsLeft, Broker.stepsLeft, htopics] at hone
    simp only [stepsLeft, paidSteps, ha, hreg]
    change _ + (b'.sessions.map _).sum + 1 ≤ _ + (b.sessions.map _).sum + _ at hone
    omega
  | call hrecv hr hd ht hu => exact stepsLeft_called h hrecv hr hd ht hu
  | @topic name t a u hinvoke ht hu =>
    have hcall := LockedTopic.remaining_step (Table.All.lookup h.topics ht).1 hu
    have hupdate := LockedRegistry.stepsLeft_update h.distinct ht u
    have hcost : LockedTopic.cost a = 0 := by
      cases a with
      | invoke => cases hinvoke
      | request | advance | failStore | wake => rfl
    rw [paidSteps_topic]
    simp only [stepsLeft]
    omega

def Quiescent (b : LockedBroker) : Prop :=
  ∀ a b', b.step a = some b' → ∃ input, a = .connect input

theorem Quiescent.stuck (hq : b.Quiescent) (ht : b.registry.getTopic name = some t) :
    LockedTopic.Stuck requestHash t := by
  intro a u hu
  cases ha : a.isInvoke with
  | true => rfl
  | false =>
    have hstep : b.step (.topic name a) =
        some { b with registry := b.registry.update name u } := by
      rw [step, ha, advanceTopic, ht, Option.bind_some, hu, Option.map_some]
      rfl
    obtain ⟨input, he⟩ := hq _ _ hstep
    cases he

theorem visiting_of_coherent (hco : b.broker.registry.All Topic.Coherent)
    (ht : b.registry.getTopic name = some t) : t.topic.Visiting := by
  intro c hc
  obtain ⟨i, hi⟩ := List.mem_iff_getElem?.1 hc
  exact ((hco.getTopic (getTopic_broker ht)).sound i c hi).visits

section
variable (hq : b.Quiescent) (h : Orderly b) (hco : b.broker.registry.All Topic.Coherent)
  (hnull : ∀ name t, b.registry.getTopic name = some t →
    ∀ c ∈ t.topic.calls, ¬ t.topic.DereferencesNull c)
include hq h hco hnull

theorem Quiescent.settled (ht : b.registry.getTopic name = some t) :
    (∀ c ∈ t.topic.calls, c.pc.isFinished = true) ∧
      (∀ p, (t.mutex p).mutex = {} ∧ (t.mutex p).waking = 0) ∧ t.wallMutex.mutex = {} := by
  have ho := h.getTopic ht
  have hs := hq.stuck ht
  have hvis := visiting_of_coherent hco ht
  refine ⟨?_, fun p => ⟨?_, hs.waking p⟩, ?_⟩
  · exact fun c hc =>
      LockedTopic.finished_of_stuck ho.attending ho.sound hs hvis (hnull name t ht) hc
  · exact LockedTopic.free_of_stuck ho.attending ho.sound hs hvis (hnull name t ht) p
  · exact LockedTopic.wallFree_of_stuck ho.attending ho.sound hs hvis (hnull name t ht)

/-- Where the mutexes leave nothing to do, nothing would be left to do without them. -/
theorem Quiescent.broker : b.broker.Quiescent := by
  have impossible {a x y} (hx : b.broker.step x = some y)
      (ha : (b.step a).map LockedBroker.broker = b.broker.step x) :
      ∃ input, a = .connect input := by
    obtain ⟨b', hs, -⟩ := Option.map_eq_some_iff.1 (ha.trans hx)
    exact hq a b' hs
  have moving {name : Text} {i : Nat} {u : Topic} {c : Call} {pc : Pc} {e : Effect}
      (hu : b.broker.registry.getTopic name = some u) (hc : u.calls[i]? = some c)
      (hn : Topic.Next u i c pc e) : False := by
    obtain ⟨t, ht, rfl⟩ := getTopic_locked hu
    have hf := (hq.settled h hco hnull ht).1 c (List.mem_of_getElem? hc)
    exact Bool.noConfusion (hn.not_finished.symm.trans hf)
  intro x y hx
  cases x with
  | connect input => exact ⟨input, rfl⟩
  | receive s env =>
    obtain ⟨_, he⟩ := impossible hx (receive_broker b s env)
    cases he
  | reply s =>
    obtain ⟨_, he⟩ := impossible hx (reply_broker b s)
    cases he
  | advance name i =>
    cases Broker.step_server hx with
    | advance ht hu =>
      obtain ⟨c, pc, e, hc, hn, -⟩ := Topic.advance_cases hu
      exact (moving ht hc hn).elim
  | failStore name i kept =>
    cases Broker.step_server hx with
    | failStore ht hu =>
      obtain ⟨c, pc, e, hc, -, hn, -⟩ := Topic.failStore_cases hu
      exact (moving ht hc hn).elim

end

theorem quiescent_of_finished (hb : b.broker.Quiescent)
    (hfin : ∀ name t, b.registry.getTopic name = some t →
      ∀ c ∈ t.topic.calls, c.pc.isFinished = true)
    (hwake : ∀ name t, b.registry.getTopic name = some t → ∀ p, (t.mutex p).waking = 0) :
    b.Quiescent := by
  intro a b' hs
  cases step_lockedServer hs with
  | talk ha hx =>
    obtain ⟨input, rfl⟩ := hb _ _ hx
    cases a with
    | connect input => exact ⟨input, rfl⟩
    | receive | reply => cases ha
    | topic name a => cases a <;> cases ha
  | @call s session f rest env =>
    have hx := receive_broker b s env
    rw [hs, Option.map_some] at hx
    obtain ⟨input, he⟩ := hb _ _ hx.symm
    cases he
  | @topic name t a u hinvoke ht hu =>
    have hstuck : LockedTopic.Stuck requestHash t :=
      LockedTopic.stuck_of_finished (hfin name t ht) (hwake name t ht)
    exact Bool.noConfusion (hinvoke.symm.trans (hstuck a u hu))

/-- A server whose topics take turns by the program's mutexes takes two steps for each byte at most
and four for each connection. Where it cannot go on and stands before no undefined behaviour, each
client has its responses and every mutex is free. -/
theorem sessions_settle (h₁ : exec step {} before = some b₁)
    (h₂ : exec step b₁ (.connect input :: acts) = some b) :
    (before ++ .connect input :: acts).length ≤
      ((before ++ .connect input :: acts).map paidSteps).sum ∧
    (AllSteps step WakesSafely {} (before ++ .connect input :: acts) → b.Quiescent →
      (∀ name t, b.registry.getTopic name = some t →
        ∀ c ∈ t.topic.calls, ¬ t.topic.DereferencesNull c) →
      (∀ s f, b.broker.frameOf s = some f → ∃ env, b.broker.Handles env f) →
      (∃ session, b.sessions[b₁.sessions.length]? = some session ∧ session.state = .closed ∧
        session.output.map Response.opcode = (handleRequests input).1.map Frame.opcode ++
          (handleRequests input).2.toList.map Response.opcode) ∧
      ∀ name t, b.registry.getTopic name = some t →
        (∀ p, (t.mutex p).mutex = {} ∧ (t.mutex p).waking = 0) ∧ t.wallMutex.mutex = {}) := by
  have hr : exec step {} (before ++ .connect input :: acts) = some b := by
    rw [exec_append, h₁, Option.bind_some, h₂]
  constructor
  · have keep (s a u) (h : Attending s) (hs : step s a = some u) : Attending u := h.step hs
    have drop (s a u) (h : Attending s) (hs : step s a = some u) :
        u.stepsLeft + 1 ≤ s.stepsLeft + paidSteps a := stepsLeft_step h hs
    have hb := exec_bounded keep drop attending_init hr
    have hz : stepsLeft {} = 0 := rfl
    omega
  · intro hw hq hnull hdef
    have h := orderly_of_exec hr hw
    have hb := refines_broker hr hw
    have hb₁ := refines_broker h₁ hw.of_append
    have hb₂ : exec Broker.step b₁.broker (.connect input ::
        acts.filterMap LockedBrokerAction.onBroker) = some b.broker := by
      rw [List.filterMap_append, exec_append, hb₁, Option.bind_some] at hb
      exact hb
    have hco := Broker.coherent_of_exec hb
    have hatt := Broker.attended_of_exec hb
    have hquiet := hq.broker h hco hnull
    constructor
    · apply Broker.answered_of_closed hb₁ hb₂
      intro session hm
      obtain ⟨s, hs⟩ := List.mem_iff_getElem?.1 hm
      apply hquiet.closed hatt hco _ hdef hs
      intro name u hu
      obtain ⟨t, ht, rfl⟩ := getTopic_locked hu
      exact hnull name t ht
    · exact fun name t ht => (hq.settled h hco hnull ht).2

theorem sessions_settle_racing : ∃ b session,
    exec step {} (.connect Audited.pushFrame :: racing) = some b ∧
      racing.length + 1 ≤ ((.connect Audited.pushFrame :: racing).map paidSteps).sum ∧
      b.sessions[0]? = some session ∧ session.output.map Response.opcode = [Opcode.push] ∧
      ∀ name t, b.registry.getTopic name = some t → t.wallMutex.mutex = {} := by
  have hr : (exec step {} (.connect Audited.pushFrame :: racing)).map
      (fun b => decide ((∀ session ∈ b.sessions, session.state = .closed) ∧
        ∀ x ∈ b.registry, ∀ m ∈ x.2.mutexes, m.waking = 0)) = some true := by
    decide +kernel
  obtain ⟨b, hr, hst⟩ := Option.map_eq_some_iff.1 hr
  obtain ⟨hcl, hwake⟩ := of_decide_eq_true hst
  have hw : AllSteps step WakesSafely {} (.connect Audited.pushFrame :: racing) := by
    decide +kernel
  have hatt := Broker.attended_of_exec (refines_broker hr hw)
  have hfin (name t) (ht : b.registry.getTopic name = some t) (c) (hc : c ∈ t.topic.calls) :
      c.pc.isFinished = true := by
    obtain ⟨i, hi⟩ := List.mem_iff_getElem?.1 hc
    exact Broker.finished_of_closed hatt hcl (Broker.callOf_eq_some (getTopic_broker ht) hi)
  have hidle (name t) (ht : b.registry.getTopic name = some t) (p : UInt16) :
      (t.mutex p).waking = 0 := by
    exact LockedTopic.waking_of_mutexes (Table.All.lookup
      (P := fun t : LockedTopic => ∀ m ∈ t.mutexes, m.waking = 0) hwake ht) p
  have hq := quiescent_of_finished (Broker.quiescent_of_closed hatt hcl) hfin hidle
  have hend := Broker.runsToEnd_of_closed hatt hcl
  have hstart : exec step {} [] = some ({} : LockedBroker) := rfl
  obtain ⟨hlen, hsettle⟩ := sessions_settle hstart hr
  obtain ⟨⟨session, hs, -, hout⟩, hfree⟩ := hsettle hw hq
    (fun name t ht => hend.fronts name t.topic (getTopic_broker ht)) hend.handles
  refine ⟨b, session, hr, hlen, hs, hout.trans ?_, fun name t ht => (hfree name t ht).2⟩
  decide +kernel

end LockedBroker
end Noctua.Rpc
