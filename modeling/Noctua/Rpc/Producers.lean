import Noctua.Rpc.ClientHistory
import Noctua.Topic.Producers

namespace Noctua.Rpc
open Transition
set_option autoImplicit true

/-- The message that a frame pushes to the topic of this name; an empty name is refused. -/
def Frame.pushText (name : Text) (f : Frame) : Option Text :=
  if f.opcode = Opcode.push ∧ f.topicName = name ∧ name ≠ [] then some f.message else none

def LoopEvent.pushText (name : Text) (e : LoopEvent) : Option Text :=
  e.frame.bind (Frame.pushText name)

section
variable {reg reg' : Registry} {env : HandlerEnv} {f : Frame} {name : Text}

theorem handleRequest_name (h : handleRequest reg env f = (reg', .call name op)) :
    name ≠ [] := by
  obtain ⟨rfl, -⟩ := handleRequest_calls h
  intro hn
  simp only [handleRequest, handlePush, handlePull, handleDelete, if_pos hn] at h
  repeat' split at h
  all_goals cases h

theorem pushText_respond (h : handleRequest reg env f = (reg', .respond r)) (name : Text) :
    f.pushText name = none := by
  rw [Frame.pushText]
  apply if_neg
  rintro ⟨hop, rfl, hne⟩
  rw [handleRequest, if_pos hop, handlePush, if_neg hne] at h
  split at h
  · cases h
  · obtain ⟨-, h⟩ := Prod.mk.inj h
    simp only [callWithRequest] at h
    split at h <;> cases h

theorem pushText_other (h : handleRequest reg env f = (reg', .call n op)) (hne : n ≠ name) :
    f.pushText name = none := by
  obtain ⟨rfl, -⟩ := handleRequest_calls h
  exact if_neg fun hf => hne hf.2.1

theorem pushText_call (h : handleRequest reg env f = (reg', .call name op)) (s : Nat)
    (p : UInt16) : Call.pushText s p ⟨s, op, p, op.start⟩ = f.pushText name := by
  have hfifo := handleRequest_operation h
  have hop := handleRequest_opcode h
  obtain ⟨hname, -⟩ := handleRequest_calls h
  have hne := handleRequest_name h
  rw [Frame.operation] at hfifo
  rw [Frame.pushText]
  cases op with
  | push r padding =>
    have hop : f.opcode = Opcode.push := hop.symm
    rw [if_pos hop] at hfifo
    rw [if_pos ⟨hop, hname.symm, hne⟩, ← Fifo.Op.push.inj hfifo]
    exact Call.pushText_push (c := ⟨s, .push r padding, p, _⟩) rfl
  | read =>
    have hpull : f.opcode = Opcode.pull := hop.symm
    exact (if_neg fun hf => absurd (hpull.symm.trans hf.1) (by decide)).symm
  | remove =>
    have hdelete : f.opcode = Opcode.delete := hop.symm
    exact (if_neg fun hf => absurd (hdelete.symm.trans hf.1) (by decide)).symm

end

namespace Broker
variable {b b' : Broker} {a : BrokerAction} {name : Text} {s : Nat}

theorem ServerStep.quiet_pushes (h : ServerStep b a b') (hon : b.onTopic name a = []) (s : Nat) :
    (loopEvents s b a).filterMap (LoopEvent.pushText name) = [] := by
  have own {s' : Nat} {env : HandlerEnv} {session : Session}
      (hs : b.receiving s' = some session)
      (hq : (Rpc.receive session.input).event.filterMap (LoopEvent.pushText name) = []) :
      (loopEvents s b (.receive s' env)).filterMap (LoopEvent.pushText name) = [] := by
    rw [loopEvents]
    by_cases hss : s' = s
    · subst hss
      rw [if_pos rfl, hs]
      exact hq
    · rw [if_neg hss]
      rfl
  cases h with
  | connect | advance | failStore | reply => rfl
  | closed hs hr | badMagic hs hr | tooLarge hs hr =>
    apply own hs
    rw [hr]
    rfl
  | answered hs hr hd =>
    apply own hs
    rw [hr]
    exact List.filterMap_cons_none (pushText_respond hd name)
  | @called s' session f rest env reg n op t u hs hr hd ht hu =>
    apply own hs
    rw [hr]
    refine List.filterMap_cons_none (pushText_other hd ?_)
    rintro rfl
    rw [onTopic, calledBy_call hs hr hd, if_pos rfl] at hon
    cases hon

/-- What session `s` has had done at the topic of a name. -/
structure Publishing (name : Text) (s : Nat) (b : Broker) (es : List LoopEvent) : Prop where
  runs : ∃ acts, exec (Topic.step requestHash) (Topic.init Registry.partitionsCount) acts =
    some (b.topicAt name)
  sequence : (b.topicAt name).InSequence
  engaged : ∀ (i : Nat) (c : Call), (b.topicAt name).calls[i]? = some c →
    c.pc.isFinished = false → ∃ session opcode, b.sessions[c.client]? = some session ∧
      session.state = .calling opcode name i
  requested : (b.topicAt name).requested s 0 = es.filterMap (LoopEvent.pushText name)

theorem publishing_init (name : Text) (s : Nat) : Publishing name s {} [] where
  runs := ⟨[], rfl⟩
  sequence := Topic.inSequence_init _
  engaged _ _ hc := nomatch hc
  requested := rfl

theorem Publishing.engaged_kept (h : Publishing name s b es) (hserver : ServerStep b a b')
    {c : Call} {i : Nat} (hc : (b.topicAt name).calls[i]? = some c)
    (hf : c.pc.isFinished = false) : ∃ session opcode, b'.sessions[c.client]? = some session ∧
      session.state = .calling opcode name i := by
  obtain ⟨session, opcode, hs, hst⟩ := h.engaged i c hc hf
  have hstep := hserver.forSession c.client
  rw [hs] at hstep
  obtain hx | ⟨ans, hpc, -⟩ := hstep.waiting hst ((b.callOf_eq_topicAt name i).trans hc)
  · exact ⟨session, opcode, hx, hst⟩
  · rw [hpc] at hf
    cases hf

/-- A session that takes a request has no call under way. -/
theorem Publishing.oneAtATime (h : Publishing name s b es) {session : Session} {client : Nat}
    (hs : b.receiving client = some session) :
    ∀ c ∈ (b.topicAt name).calls, c.client = client → c.pc.isFinished = true := by
  rintro c hm rfl
  obtain ⟨i, hc⟩ := List.mem_iff_getElem?.1 hm
  by_contra hf
  obtain ⟨x, opcode, hx, hst⟩ := h.engaged i c hc (Bool.eq_false_of_not_eq_true hf)
  obtain ⟨hs, hr⟩ := receiving_eq_some.1 hs
  obtain rfl := Option.some.inj (hs.symm.trans hx)
  cases hr.symm.trans hst

theorem Publishing.step (h : Publishing name s b es) (hs : b.step a = some b') :
    Publishing name s b' (es ++ loopEvents s b a) := by
  have hserver := step_server hs
  have hturn := hserver.turn name
  obtain ⟨acts, hr⟩ := h.runs
  have hr' : exec (Topic.step requestHash) (Topic.init Registry.partitionsCount)
      (acts ++ b.onTopic name a) = some (b'.topicAt name) := by
    rw [exec_append, hr]
    exact hturn.exec_onTopic
  have hco := Topic.coherent_of_exec hr
  have hacc := Topic.accounted_of_exec hr
  cases hturn with
  | quiet hon ht =>
    constructor
    case runs => exact ⟨_, hr'⟩
    case sequence => exact ht ▸ h.sequence
    case engaged =>
      rw [ht]
      exact fun i c hc hf => h.engaged_kept hserver hc hf
    case requested =>
      rw [ht, List.filterMap_append, hserver.quiet_pushes hon, List.append_nil]
      exact h.requested
  | invoked client env f op session rest ha hrecv hreq hd hcalled ht hst =>
    subst ha
    obtain ⟨-, hu⟩ := Topic.invoke_cases ht
    have hzero := partition_zero hr' (hu ▸ Topic.calls_invoked.2 (.inr ⟨rfl, rfl⟩))
    have hone := h.oneAtATime hrecv
    rw [show Operation.partitionIdx requestHash (b.topicAt name).storage.length op = 0
      from hzero] at hu
    constructor
    case runs => exact ⟨_, hr'⟩
    case sequence =>
      rw [hu]
      exact h.sequence.invoked hacc hone op 0
    case engaged =>
      intro i c hc hf
      rw [hu] at hc
      rcases Topic.calls_invoked.1 hc with hc | ⟨rfl, rfl⟩
      · exact h.engaged_kept hserver hc hf
      · exact ⟨_, _, hst, rfl⟩
    case requested =>
      have hnew : (b'.topicAt name).requested s 0 = (b.topicAt name).requested s 0 ++
          (Call.pushText s 0 ⟨client, op, 0, op.start⟩).toList := by
        rw [hu]
        exact filterMap_concat ..
      rw [hnew, h.requested, List.filterMap_append, loopEvents]
      congr 1
      by_cases hcs : client = s
      · subst hcs
        rw [if_pos rfl, hrecv, pushText_call hd]
        simp only [hreq, Received.event]
        exact (filterMap_singleton (LoopEvent.pushText name) (.handle f)).symm
      · rw [if_neg hcs]
        have hnone : Call.pushText s 0 ⟨client, op, 0, op.start⟩ = none := by
          cases hx : Call.pushText s 0 ⟨client, op, 0, op.start⟩ with
          | none => rfl
          | some x => exact (hcs (Call.pushText_some hx).1).elim
        rw [hnone]
        rfl
  | moved i ta ha hon hsessions hl ht =>
    obtain ⟨_, _, rfl, -⟩ | ⟨j, c, pc, e, -, hc, hn, hu⟩ := Topic.step_cases ht
    · rcases ha with ha | ⟨kept, ha⟩ <;> cases ha
    · constructor
      case runs => exact ⟨_, hr'⟩
      case sequence =>
        rw [hu]
        exact h.sequence.advanced hco hc hn
      case engaged =>
        intro k d hd hf
        rw [hu] at hd
        rw [hsessions]
        rcases (Topic.calls_advanced hc).1 hd with ⟨rfl, rfl⟩ | ⟨-, hd⟩
        · exact h.engaged k c hc hn.not_finished
        · exact h.engaged k d hd hf
      case requested =>
        rw [hl, List.append_nil, hu, Topic.requested_advanced hc]
        exact h.requested

theorem publishing_of_exec (hr : exec step {} acts = some b) (name : Text) (s : Nat) :
    Publishing name s b (collect step (loopEvents s) {} acts) :=
  collect_invariant (J := Publishing name s) (loopEvents s) (fun _ _ _ _ h hs => h.step hs)
    (publishing_init name s) hr

theorem Publishing.unpushed_nil (h : Publishing name s b es) {session : Session}
    (hs : b.sessions[s]? = some session) (hp : session.pending = []) :
    (b.topicAt name).unpushed s 0 = [] := by
  obtain ⟨acts, hr⟩ := h.runs
  apply Topic.unpushed_nil (Topic.coherent_of_exec hr)
  rintro c hm rfl
  obtain ⟨i, hc⟩ := List.mem_iff_getElem?.1 hm
  by_contra hf
  obtain ⟨x, opcode, hx, hst⟩ := h.engaged i c hc (Bool.eq_false_of_not_eq_true hf)
  obtain rfl := Option.some.inj (hs.symm.trans hx)
  rw [pending_calling hst] at hp
  cases hp

theorem filterMap_pushText (name : Text) (es : List LoopEvent) :
    es.filterMap (LoopEvent.pushText name) =
      (es.filterMap LoopEvent.frame).filterMap (Frame.pushText name) :=
  (List.filterMap_filterMap).symm

theorem session_of_connect (h₁ : exec step {} before = some b₁)
    (h₂ : exec step b₁ (.connect input :: acts) = some b) :
    exec step {} (before ++ .connect input :: acts) = some b ∧
      ∃ session, b.sessions[b₁.sessions.length]? = some session ∧
        Follows (handleRequests input) session (collect step (loopEvents b₁.sessions.length) {}
          (before ++ .connect input :: acts)) := by
  have hr : exec step {} (before ++ .connect input :: acts) = some b := by
    rw [exec_append, h₁]
    exact h₂
  obtain ⟨c, hstep, hrest⟩ := exec_cons_some.1 h₂
  cases hstep
  have hnew : (b₁.sessions ++ [({ input := input } : Session)])[b₁.sessions.length]? =
      some { input := input } := List.getElem?_concat_length
  obtain ⟨session, hs, hf⟩ := session_follows_loop hnew rfl hrest
  have hbefore : collect step (loopEvents b₁.sessions.length) {} before = [] := by
    have hm := matching_of_exec (s := b₁.sessions.length) h₁
    rwa [List.getElem?_eq_none (Nat.le_refl _)] at hm
  have hevents :
      collect step (loopEvents b₁.sessions.length) {} (before ++ .connect input :: acts) =
      collect step (loopEvents b₁.sessions.length)
        { b₁ with sessions := b₁.sessions ++ [{ input := input }] } acts := by
    rw [collect_append _ _ h₁, hbefore]
    rfl
  exact ⟨hr, session, hs, hevents ▸ hf⟩

/-- Whatever the other clients do, the messages that a client has in the history of a topic are
those of the PUSH frames in its bytes, in their order and each once, up to the one that is being
handled and those that are still to be read. -/
theorem pushes_published (h₁ : exec step {} before = some b₁)
    (h₂ : exec step b₁ (.connect input :: acts) = some b) (name : Text) :
    ∃ session, b.sessions[b₁.sessions.length]? = some session ∧
      (b.topicAt name).published b₁.sessions.length 0 ++
          (b.topicAt name).unpushed b₁.sessions.length 0 ++
          session.remaining.1.filterMap (Frame.pushText name) =
        (handleRequests input).1.filterMap (Frame.pushText name) ∧
      (session.pending = [] → (b.topicAt name).unpushed b₁.sessions.length 0 = []) := by
  obtain ⟨hr, session, hs, hf⟩ := session_of_connect h₁ h₂
  have hpub := publishing_of_exec hr name b₁.sessions.length
  refine ⟨session, hs, ?_, hpub.unpushed_nil hs⟩
  rw [hpub.sequence.texts, hpub.requested, filterMap_pushText, hf.frames, List.filterMap_append]

/-- A client that pushes "b" and "c" to the topic "a" while another pushes to it. -/
def twoPushes : List UInt8 :=
  Audited.pushFrame ++ [0x55, 0x43, 0x4F, 0x4E, 1, 0, 1, 0, 0, 0, 1, 0, 97, 99]

def producing : List BrokerAction :=
  let env : HandlerEnv := ⟨true, 0, fun _ => 0, .replicate 5 0⟩
  [.connect Audited.pushFrame, .receive 0 env, .receive 1 env] ++
    List.replicate 6 (.advance [97] 1) ++ List.replicate 6 (.advance [97] 0) ++
    [.reply 0, .receive 0 env] ++ List.replicate 6 (.advance [97] 2) ++ [.reply 0]

theorem pushes_published_producing :
    ∃ b, exec step {} (.connect twoPushes :: producing) = some b ∧
      (b.topicAt [97]).published 0 0 =
        (handleRequests twoPushes).1.filterMap (Frame.pushText [97]) := by
  have hr : (exec step {} (.connect twoPushes :: producing)).map (fun b =>
      b.sessions[0]?.map fun session => (session.pending, session.remaining.1)) =
        some (some ([], [])) := by decide +kernel
  obtain ⟨b, hr, he⟩ := Option.map_eq_some_iff.1 hr
  obtain ⟨x, hx, he⟩ := Option.map_eq_some_iff.1 he
  obtain ⟨hp, hrem⟩ := Prod.mk.inj he
  have hstart : exec step {} [] = some ({} : Broker) := rfl
  obtain ⟨session, hs, htexts, hnil⟩ := pushes_published hstart hr [97]
  obtain rfl := Option.some.inj (hx.symm.trans hs)
  rw [hnil hp, hrem, List.append_nil, List.filterMap_nil, List.append_nil] at htexts
  exact ⟨b, hr, htexts⟩

end Broker
end Noctua.Rpc
