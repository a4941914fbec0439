import Noctua.Rpc.Liveness
import Noctua.Topic.Front

namespace Noctua.Rpc
open Transition
set_option autoImplicit true

namespace Broker

/-- What the client of session `s` decodes when it receives a response for each frame that the loop
handled and for its exit on a bad magic or an oversized frame: all bytes, one response for each
under its opcode and in order, and in a PULL answered OK the text that the topic gave. -/
def AnswersEach (acts : List BrokerAction) (s : Nat) (session : Session) : Prop :=
  let events := collect step (loopEvents s) {} acts
  ∀ sent : List (Response × Vector UInt8 3), sent.map Prod.fst = session.output →
    ∃ received, receiveResponses events.length (sent.flatMap fun x => x.1.bytes x.2) =
        some (received, []) ∧
      events.map LoopEvent.opcode = received.map (fun d => d.1.opcode) ∧
      ∀ (k : Nat) (header : ResponseHeader) (data : Option Text),
        received[k]? = some (header, data) → header.opcode = Opcode.pull →
          header.errorCode = ErrorCode.ok.value → ∃ m,
            (k, .message (some m)) ∈ collect step (topicAnswers s) {} acts ∧
              data = if m.text = [] then none else some m.text

/-- A lock that the step grants to a `remove` is on a partition that holds a message. -/
def GrantsOnMessages (b : Broker) : BrokerAction → Prop
  | .advance name i => ∀ t, b.registry.getTopic name = some t → ∀ c, t.calls[i]? = some c →
      t.GrantsRemove c → t.queue c.partition ≠ []
  | _ => True

instance (t : Topic) (c : Call) : Decidable (t.GrantsRemove c) :=
  inferInstanceAs (Decidable (_ ∧ (_ ∧ _ ∨ _ ∧ _)))

instance (b : Broker) (a : BrokerAction) : Decidable (b.GrantsOnMessages a) :=
  match a with
  | .advance name i => inferInstanceAs (Decidable (∀ t, b.registry.getTopic name = some t →
      ∀ c, t.calls[i]? = some c → t.GrantsRemove c → t.queue c.partition ≠ []))
  | .connect _ | .receive _ _ | .failStore _ _ _ | .reply _ => isTrue trivial

variable {b b' : Broker} {a : BrokerAction} {session : Session} {name : Text} {i : Nat}

theorem answersEach_iff (hr : exec step {} acts = some b) (hs : b.sessions[s]? = some session) :
    AnswersEach acts s session ↔ session.pending = [] := by
  constructor
  · intro h
    have hsent : (session.output.map fun r => (r, Vector.replicate 3 (0 : UInt8))).map Prod.fst =
        session.output := by
      rw [List.map_map]
      exact List.map_id _
    obtain ⟨received, hreceived, -, -⟩ := h _ hsent
    obtain ⟨hshort, -, hevents⟩ := responses_decode hr hs _ hsent
    cases hp : session.pending with
    | nil => rfl
    | cons op rest =>
      have hlen := congrArg List.length hevents
      rw [List.length_map, List.length_append, List.length_map, hp, List.length_cons] at hlen
      have hmore := Response.receiveResponses_more _ hshort rest.length
      rw [List.length_map, ← hlen, hreceived] at hmore
      cases hmore
  · intro hp sent hsent
    obtain ⟨-, hreceived, hevents⟩ := responses_decode hr hs sent hsent
    rw [hp, List.append_nil] at hevents
    have hlen := congrArg List.length hevents
    rw [List.length_map, List.length_map] at hlen
    refine ⟨session.output.map Response.received, ?_, ?_, ?_⟩
    · rw [hlen]
      exact hreceived
    · rw [hevents, List.map_map]
      rfl
    · intro k header data hk hop hok
      exact pulled_text hr hs hk hop hok

def StandsBeforeNull (b : Broker) (name : Text) (i : Nat) : Prop :=
  ∃ t c, b.registry.getTopic name = some t ∧ t.calls[i]? = some c ∧ t.DereferencesNull c

theorem StandsBeforeNull.step (h : b.StandsBeforeNull name i)
    (hco : b.registry.All Topic.Coherent) (hs : b.step a = some b') :
    b'.StandsBeforeNull name i := by
  obtain ⟨t, c, ht, hc, hnull⟩ := h
  have hstep := (step_server hs).topic name
  rw [ht] at hstep
  generalize hu : b'.registry.getTopic name = o at hstep
  cases hstep with
  | same => exact ⟨t, c, hu, hc, hnull⟩
  | invoked op p hp => exact ⟨_, c, hu, Topic.calls_invoked.2 (.inl hc), hnull⟩
  | moved ha hd hn =>
    obtain ⟨hc', hnull'⟩ := hnull.advanced (hco.getTopic ht) hc hd hn
    exact ⟨_, c, hu, hc', hnull'⟩

theorem standsBeforeNull_of_grant (hg : ¬ GrantsOnMessages b a) (hs : b.step a = some b') :
    ∃ name i, b'.StandsBeforeNull name i := by
  cases a with
  | connect | receive | failStore | reply => exact (hg trivial).elim
  | advance name i =>
    simp only [GrantsOnMessages, not_forall, not_not] at hg
    obtain ⟨t, ht, c, hc, hgrant, hq⟩ := hg
    obtain ⟨pc, e, hn, ht'⟩ := step_moves (.inl rfl) hs ht hc
    exact ⟨name, i, _, _, ht', Topic.calls_advanced_self hc, hgrant.stands hq hn⟩

theorem grants_or_stands (hco : b.registry.All Topic.Coherent) (hr : exec step b acts = some b') :
    AllSteps step GrantsOnMessages b acts ∨ ∃ name i, b'.StandsBeforeNull name i := by
  have coherent {b b' : Broker} {a : BrokerAction} (hco : b.registry.All Topic.Coherent)
      (hs : b.step a = some b') : b'.registry.All Topic.Coherent :=
    topics_rule (Topic.coherent_init _) (fun _ _ _ h hs => h.step hs) b a b' hco hs
  induction acts generalizing b with
  | nil => exact .inl trivial
  | cons a acts ih =>
    obtain ⟨u, hs, hrest⟩ := exec_cons_some.1 hr
    by_cases hg : GrantsOnMessages b a
    · refine (ih (coherent hco hs) hrest).imp_left fun h => ⟨hg, fun v hv => ?_⟩
      cases hs.symm.trans hv
      exact h
    · obtain ⟨name, i, hnull⟩ := standsBeforeNull_of_grant hg hs
      have hkept := exec_invariant
        (I := fun b => b.registry.All Topic.Coherent ∧ b.StandsBeforeNull name i)
        (fun _ _ _ h hs => ⟨coherent h.1 hs, h.2.step h.1 hs⟩) ⟨coherent hco hs, hnull⟩ hrest
      exact .inr ⟨name, i, hkept.2⟩

theorem StandsBeforeNull.pending (h : b.StandsBeforeNull name i) (hatt : b.Attended) :
    ∃ (s : Nat) (session : Session), b.sessions[s]? = some session ∧ session.pending ≠ [] := by
  obtain ⟨t, c, ht, hc, hop, hpc, -⟩ := h
  have hf : c.pc.isFinished = false := by
    rcases hpc with hpc | hpc <;> rw [hpc] <;> rfl
  obtain ⟨s, session, hs, hst⟩ := hatt.waits name i c (callOf_eq_some ht hc) hf
  refine ⟨s, session, hs, ?_⟩
  rw [pending_calling hst]
  exact List.cons_ne_nil _ _

def FrontsPresent (b : Broker) : Prop :=
  b.registry.All fun t => t.Coherent ∧ Topic.Local Topic.FrontPresent t

theorem FrontsPresent.step (h : FrontsPresent b) (hg : GrantsOnMessages b a)
    (hs : b.step a = some b') : FrontsPresent b' := by
  have keep {t u : Topic} {ta : TopicAction}
      (ht : t.Coherent ∧ Topic.Local Topic.FrontPresent t) (hg : t.GrantsOnMessages ta)
      (hu : t.step requestHash ta = some u) : u.Coherent ∧ Topic.Local Topic.FrontPresent u :=
    ⟨ht.1.step hu, ht.2.frontPresent_step ht.1 hg hu⟩
  have init : (Topic.init Registry.partitionsCount).Coherent ∧
      Topic.Local Topic.FrontPresent (Topic.init Registry.partitionsCount) :=
    ⟨Topic.coherent_init _, fun i c hc => by cases hc⟩
  cases step_server hs with
  | connect | closed | badMagic | tooLarge | answered | reply => exact h
  | @called s session f rest env reg name op t u hs hr hd ht hu =>
    have hreg := Registry.All.handleRequest h init env f
    rw [hd] at hreg
    exact hreg.update (keep (hreg.getTopic ht) (fun i c ha => by cases ha) hu)
  | advance ht hu =>
    apply h.update (keep (h.getTopic ht) _ hu)
    rintro i c ha hc hgrant
    cases ha
    exact hg _ ht c hc hgrant
  | failStore ht hu =>
    exact h.update (keep (h.getTopic ht) (fun i c ha => by cases ha) hu)

theorem frontsPresent_of_exec (h : AllSteps step GrantsOnMessages {} acts)
    (hr : exec step {} acts = some b) (ht : b.registry.getTopic name = some t) :
    t.FrontsPresent := by
  have hf : FrontsPresent b :=
    exec_invariant_of_allSteps (fun _ _ _ h hg hs => h.step hg hs)
      (show FrontsPresent {} from Registry.all_nil) h hr
  exact Topic.frontsPresent_iff.2 (hf.getTopic ht).2

/-- Where the server has nothing left to do, and no request made a handler leave its buffer or its
partitions or fail a check: every request has exactly one response, exactly when no `remove` has
been granted a lock of an empty partition. -/
theorem one_response_per_request_iff (hr : exec step {} acts = some b) (hq : b.Quiescent)
    (hdef : ∀ s f, b.frameOf s = some f → ∃ env, b.Handles env f) :
    (∀ (s : Nat) (session : Session), b.sessions[s]? = some session →
        AnswersEach acts s session) ↔ AllSteps step GrantsOnMessages {} acts := by
  constructor
  · intro h
    refine (grants_or_stands Registry.all_nil hr).resolve_right ?_
    rintro ⟨name, i, hnull⟩
    obtain ⟨s, session, hs, hp⟩ := hnull.pending (attended_of_exec hr)
    exact hp ((answersEach_iff hr hs).1 (h s session hs))
  · intro h s session hs
    have hclosed := hq.closed (attended_of_exec hr) (coherent_of_exec hr)
      (fun name t ht => frontsPresent_of_exec h hr ht) hdef hs
    apply (answersEach_iff hr hs).2
    rw [Session.pending, hclosed]

/-- No session receives, no call can make a step, and no response can be sent. -/
def Stalled (b : Broker) : Prop :=
  (∀ session ∈ b.sessions, session.state ≠ .receiving) ∧
    b.registry.All (fun t =>
      ∀ i < t.calls.length, (t.step requestHash (.advance i)).isNone = true) ∧
    ∀ s < b.sessions.length, (b.step (.reply s)).isNone = true

instance (b : Broker) : Decidable b.Stalled :=
  inferInstanceAs (Decidable ((∀ session ∈ b.sessions, session.state ≠ .receiving) ∧
    (∀ x ∈ b.registry, ∀ i < x.2.calls.length,
      (x.2.step requestHash (.advance i)).isNone = true) ∧
    ∀ s < b.sessions.length, (b.step (.reply s)).isNone = true))

theorem Stalled.not_receiving (h : b.Stalled) (s : Nat) : b.receiving s = none := by
  apply Option.eq_none_iff_forall_ne_some.2
  intro session hs
  obtain ⟨hs, hst⟩ := receiving_eq_some.1 hs
  exact h.1 session (List.mem_of_getElem? hs) hst

theorem Stalled.frameOf (h : b.Stalled) (s : Nat) : b.frameOf s = none := by
  rw [Broker.frameOf, h.not_receiving s, Option.bind_none]

theorem Stalled.quiescent (h : b.Stalled) : b.Quiescent := by
  intro a b' hstep
  have receiving {s : Nat} {session : Session} (hs : b.receiving s = some session) : False := by
    cases (h.not_receiving s).symm.trans hs
  have advancing {n : Text} {t u : Topic} {i : Nat} (ht : b.registry.getTopic n = some t)
      (hu : t.step requestHash (.advance i) = some u) : False := by
    obtain ⟨c, -, -, hc, -⟩ := Topic.advance_cases hu
    have hnone := (h.2.1.getTopic ht) i (List.getElem?_eq_some_iff.1 hc).1
    rw [hu] at hnone
    cases hnone
  cases step_server hstep with
  | connect input => exact ⟨input, rfl⟩
  | closed hs | badMagic hs | tooLarge hs | answered hs | called hs => exact (receiving hs).elim
  | advance ht hu => exact (advancing ht hu).elim
  | failStore ht hu =>
    obtain ⟨c, hc, hu⟩ := Option.bind_eq_some_iff.1 hu
    obtain ⟨⟨pc, e⟩, hn, -⟩ := Option.bind_eq_some_iff.1 hu
    exact (advancing ht (Option.bind_eq_some_iff.2
      ⟨c, hc, Option.map_eq_some_iff.2 ⟨_, hn, rfl⟩⟩)).elim
  | reply hs =>
    have hnone := h.2.2 _ (List.getElem?_eq_some_iff.1 hs).1
    rw [hstep] at hnone
    cases hnone

def deleteFrame : List UInt8 := [0x55, 0x43, 0x4F, 0x4E, 3, 0, 1, 0, 0, 0, 1, 0, 97, 98]

/-- A PUSH of "b", a PULL and a DELETE of "b", and the end of the connection. -/
def deletedOnce : List BrokerAction :=
  let env : HandlerEnv := ⟨true, 0, fun _ => 0, .replicate 5 0⟩
  .connect (Audited.pushFrame ++ ([0x55, 0x43, 0x4F, 0x4E, 2, 0, 1, 0, 0, 0, 0, 0, 97] ++
    deleteFrame)) :: .receive 0 env :: List.replicate 6 (.advance [97] 0) ++
    .reply 0 :: .receive 0 env :: List.replicate 3 (.advance [97] 1) ++
    .reply 0 :: .receive 0 env :: List.replicate 10 (.advance [97] 2) ++
    [.reply 0, .receive 0 env]

theorem one_response_per_request_iff_deletedOnce : ∃ b session,
    exec step {} deletedOnce = some b ∧ b.sessions[0]? = some session ∧
      session.output = [okResponse Opcode.push, dataResponse Opcode.pull [98],
        okResponse Opcode.delete] ∧ AnswersEach deletedOnce 0 session := by
  have hrun : (exec step {} deletedOnce).map (fun b => decide (b.Stalled ∧ b.sessions =
      [⟨[], .closed, [okResponse Opcode.push, dataResponse Opcode.pull [98],
        okResponse Opcode.delete]⟩])) = some true := by decide +kernel
  have granted : AllSteps step GrantsOnMessages {} deletedOnce := by decide +kernel
  obtain ⟨b, hr, hb⟩ := Option.map_eq_some_iff.1 hrun
  obtain ⟨hstalled, hsessions⟩ := of_decide_eq_true hb
  have hdef (s f) (hf : b.frameOf s = some f) : ∃ env, b.Handles env f := by
    cases (hstalled.frameOf s).symm.trans hf
  have hs : b.sessions[0]? = some _ := congrArg (·[0]?) hsessions
  exact ⟨b, _, hr, hs, rfl,
    (one_response_per_request_iff hr hstalled.quiescent hdef).2 granted 0 _ hs⟩

/-- A PUSH of "b" and two DELETEs of it. -/
def deletedTwice : List BrokerAction :=
  let env : HandlerEnv := ⟨true, 0, fun _ => 0, .replicate 5 0⟩
  .connect (Audited.pushFrame ++ (deleteFrame ++ deleteFrame)) :: .receive 0 env ::
    List.replicate 6 (.advance [97] 0) ++
    .reply 0 :: .receive 0 env :: List.replicate 10 (.advance [97] 1) ++
    [.reply 0, .receive 0 env, .advance [97] 2]

/-- The second DELETE is never answered. -/
theorem one_response_per_request_fails : ¬ ∀ (acts : List BrokerAction) (b : Broker),
    exec step {} acts = some b → b.Quiescent →
      (∀ s f, b.frameOf s = some f → ∃ env, b.Handles env f) →
        ∀ (s : Nat) (session : Session), b.sessions[s]? = some session →
          AnswersEach acts s session := by
  intro h
  have hrun : (exec step {} deletedTwice).map (fun b => decide (b.Stalled ∧
      b.sessions.map Session.pending = [[Opcode.delete]])) = some true := by decide +kernel
  obtain ⟨b, hr, hb⟩ := Option.map_eq_some_iff.1 hrun
  obtain ⟨hstalled, hpending⟩ := of_decide_eq_true hb
  have hdef (s f) (hf : b.frameOf s = some f) : ∃ env, b.Handles env f := by
    cases (hstalled.frameOf s).symm.trans hf
  obtain ⟨session, hsessions, hp⟩ := List.map_eq_singleton_iff.1 hpending
  have hs : b.sessions[0]? = some session := congrArg (·[0]?) hsessions
  have hnil := (answersEach_iff hr hs).1 (h deletedTwice b hr hstalled.quiescent hdef 0 session hs)
  cases hp.symm.trans hnil

end Broker
end Noctua.Rpc
