import Noctua.Rpc.Framing
import Noctua.Rpc.Responses
import Noctua.Rpc.ServerStep
import Noctua.Topic.Coherent

namespace Noctua
open Transition
set_option autoImplicit true

def Answer.Short : Answer → Prop
  | .message (some m) => m.text.length < 2 ^ 16
  | _ => True

def Pc.Short : Pc → Prop
  | .releaseRead (some a) | .releaseWrite a | .finished a => a.Short
  | _ => True

namespace Topic
variable {t u : Topic} {c : Call} {e : Effect} {p : UInt16} {hash : Request → Nat}

structure ShortTexts (t : Topic) : Prop where
  queues : ∀ p, ∀ m ∈ t.queue p, m.text.length < 2 ^ 16
  answers : ∀ (i : Nat) (c : Call), t.calls[i]? = some c → c.pc.Short

theorem Next.short (hn : Next t i c pc e) (hq : ∀ m ∈ t.queue c.partition, m.text.length < 2 ^ 16)
    (hs : c.pc.Short) : pc.Short := by
  cases hn with
  | readFront =>
    cases hh : (t.queue c.partition).head? with
    | none => trivial
    | some m => exact hq m (List.mem_of_head? hh)
  | answerRead hpc | answerWrite hpc =>
    rw [hpc] at hs
    exact hs
  | _ => trivial

theorem Next.queue_short (hn : Next t i c pc e) (hr : c.partition.toNat < t.storage.length)
    (hq : ∀ p, ∀ m ∈ t.queue p, m.text.length < 2 ^ 16)
    (hm : m ∈ (t.advanced i c pc e).queue p) : m.text.length < 2 ^ 16 := by
  by_cases hp : p = c.partition
  · rw [hp, advanced_queue_self hr] at hm
    cases hn with
    | @push r =>
      rcases List.mem_append.1 hm with hm | hm
      · exact hq _ m hm
      · rw [List.mem_singleton.1 hm]
        exact r.message.short
    | pop => exact hq _ m (List.mem_of_mem_tail hm)
    | _ => exact hq _ m hm
  · rw [advanced_queue_ne hp] at hm
    exact hq p m hm

theorem shortTexts_init (n : Nat) : ShortTexts (init n) where
  queues := by
    intro p m hm
    rw [init_queue] at hm
    cases hm
  answers := by
    intro i c hc
    cases hc

theorem ShortTexts.step (h : ShortTexts t) (hco : Coherent t) (hs : t.step hash a = some u) :
    ShortTexts u := by
  obtain ⟨client, op, -, -, -, rfl⟩ | ⟨i, c, pc, e, -, hc, hn, rfl⟩ := step_cases hs
  · refine ⟨h.queues, fun j d hd => ?_⟩
    rcases calls_invoked.1 hd with hd | ⟨-, rfl⟩
    · exact h.answers j d hd
    · cases op <;> trivial
  · refine ⟨fun p m hm => hn.queue_short (hco.inRange i c hc) h.queues hm, fun j d hd => ?_⟩
    rcases (calls_advanced hc).1 hd with ⟨rfl, rfl⟩ | ⟨-, hd⟩
    · exact hn.short (h.queues _) (h.answers j c hc)
    · exact h.answers j d hd

end Topic

namespace Rpc

/-- What the loop of a session does with the bytes that it has received. -/
inductive LoopEvent where
  | handle (f : Frame)
  | badMagic
  | tooLarge (opcode : UInt8)
  deriving DecidableEq, Repr

def LoopEvent.opcode : LoopEvent → UInt8
  | .handle f => f.opcode
  | .badMagic => Opcode.push
  | .tooLarge opcode => opcode

def Received.event : Received → List LoopEvent
  | .closed => []
  | .badMagic => [.badMagic]
  | .tooLarge opcode => [.tooLarge opcode]
  | .request f _ => [.handle f]

/-- The opcode of the request that is being handled. -/
def Session.pending (session : Session) : List UInt8 :=
  match session.state with
  | .calling opcode _ _ => [opcode]
  | _ => []

def LoopEvent.frame : LoopEvent → Option Frame
  | .handle f => some f
  | _ => none

def LoopEvent.response : LoopEvent → Option Response
  | .handle _ => none
  | .badMagic => some (errorResponse Opcode.push .internalError "Invalid magic number")
  | .tooLarge opcode => some (errorResponse opcode .internalError "Data too large")

/-- What the loop will do with the bytes that are still to be read. -/
def Session.remaining (session : Session) : List Frame × Option Response :=
  if session.state = .closed then ([], none) else handleRequests session.input

namespace Broker

/-- The complete frames that session `s` passes to `handle_request`, and its exits on a bad magic
or on an oversized frame. -/
def loopEvents (s : Nat) (b : Broker) : BrokerAction → List LoopEvent
  | .receive s' _ =>
    if s' = s then
      match b.receiving s with
      | some session => (Rpc.receive session.input).event
      | none => []
    else []
  | _ => []

/-- The answer of the topic to the request of session `s` that is answered next, with the number
of the responses sent before. -/
def topicAnswers (s : Nat) (b : Broker) : BrokerAction → List (Nat × Answer)
  | .reply s' =>
    if s' = s then
      match b.sessions[s]? with
      | some session =>
        match session.state with
        | .calling _ name i =>
          match b.callOf name i with
          | some c =>
            match c.pc with
            | .finished a => [(session.output.length, a)]
            | _ => []
          | none => []
        | _ => []
      | none => []
    else []
  | _ => []

/-- Everything that a step of the server can be for one session. -/
inductive SessionStep (b b' : Broker) :
    Option Session → Option Session → List LoopEvent → List (Nat × Answer) → Prop where
  | same : SessionStep b b' o o [] []
  | connect (input : List UInt8) : SessionStep b b' none (some { input := input }) [] []
  | closed (hst : session.state = .receiving) (hr : Rpc.receive session.input = .closed) :
      SessionStep b b' (some session) (some session.close) [] []
  | badMagic (hst : session.state = .receiving) (hr : Rpc.receive session.input = .badMagic) :
      SessionStep b b' (some session) (some (session.send
        (errorResponse Opcode.push .internalError "Invalid magic number")).close) [.badMagic] []
  | tooLarge (hst : session.state = .receiving)
      (hr : Rpc.receive session.input = .tooLarge opcode) :
      SessionStep b b' (some session) (some (session.send
        (errorResponse opcode .internalError "Data too large")).close) [.tooLarge opcode] []
  | answered (hst : session.state = .receiving)
      (hr : Rpc.receive session.input = .request f rest) (he : IsError f r) :
      SessionStep b b' (some session)
        (some (({ session with input := rest } : Session).send r)) [.handle f] []
  | called (hst : session.state = .receiving)
      (hr : Rpc.receive session.input = .request f rest) (hc : b'.callOf name i = some c)
      (hop : f.opcode = Opcode.pull → c.operation = .read f.partitionId) :
      SessionStep b b' (some session)
        (some { session with input := rest, state := .calling f.opcode name i }) [.handle f] []
  | reply (hst : session.state = .calling opcode name i) (hc : b.callOf name i = some c)
      (hpc : c.pc = .finished a) :
      SessionStep b b' (some session)
        (some { session.send (replyTo opcode a) with state := .receiving }) []
        [(session.output.length, a)]

variable {b b' : Broker} {session : Session}

theorem sessionStep_receive {s s' : Nat} (hs : b.receiving s' = some session)
    (hb : b'.sessions = b.sessions.set s' x)
    (own : SessionStep b b' (some session) (some x) (Rpc.receive session.input).event []) :
    SessionStep b b' b.sessions[s]? b'.sessions[s]? (loopEvents s b (.receive s' env)) [] := by
  rw [hb]
  by_cases h : s' = s
  · subst h
    have hsession := (receiving_eq_some.1 hs).1
    rw [loopEvents, if_pos rfl, hs, List.getElem?_set_self (List.getElem?_eq_some_iff.1 hsession).1,
      hsession]
    exact own
  · rw [loopEvents, if_neg h, List.getElem?_set_ne h]
    exact .same

theorem ServerStep.forSession (h : ServerStep b a b') (s : Nat) :
    SessionStep b b' b.sessions[s]? b'.sessions[s]? (loopEvents s b a) (topicAnswers s b a) := by
  cases h with
  | connect input =>
    change SessionStep b _ b.sessions[s]? (b.sessions ++ [{ input := input }])[s]? [] []
    rcases Nat.lt_trichotomy s b.sessions.length with hlt | rfl | hgt
    · rw [List.getElem?_append_left hlt]
      exact .same
    · rw [List.getElem?_concat_length, List.getElem?_eq_none (Nat.le_refl _)]
      exact .connect input
    · rw [List.getElem?_eq_none (Nat.le_of_lt hgt),
        List.getElem?_eq_none (by rw [List.length_append]; exact hgt)]
      exact .same
  | closed hs hr =>
    apply sessionStep_receive hs rfl
    rw [hr]
    exact .closed (receiving_eq_some.1 hs).2 hr
  | badMagic hs hr =>
    apply sessionStep_receive hs rfl
    rw [hr]
    exact .badMagic (receiving_eq_some.1 hs).2 hr
  | tooLarge hs hr =>
    apply sessionStep_receive hs rfl
    rw [hr]
    exact .tooLarge (receiving_eq_some.1 hs).2 hr
  | answered hs hr hd =>
    apply sessionStep_receive hs rfl
    rw [hr]
    exact .answered (receiving_eq_some.1 hs).2 hr (handleRequest_respond hd).2
  | @called s' session f rest env reg name op t u hs hr hd ht hu =>
    apply sessionStep_receive hs rfl
    rw [hr]
    obtain ⟨-, rfl⟩ := Topic.invoke_cases hu
    apply SessionStep.called (receiving_eq_some.1 hs).2 hr
    · exact callOf_called ht ..
    · exact handleRequest_call_pull hd
  | advance ht hu => exact .same
  | failStore ht hu => exact .same
  | @reply s' session name t call c opcode a hs hc ht hcall hpc =>
    have hcallOf := callOf_eq_some ht hcall
    change SessionStep b _ b.sessions[s]? (b.sessions.set s' _)[s]? [] _
    by_cases h : s' = s
    · subst h
      rw [List.getElem?_set_self (List.getElem?_eq_some_iff.1 hs).1, hs]
      simp only [topicAnswers, if_pos, hs, hc, hcallOf, hpc]
      exact .reply hc hcallOf hpc
    · rw [topicAnswers, if_neg h, List.getElem?_set_ne h]
      exact .same

/-- What the loop has done so far, followed by what it will do with the rest of its bytes. -/
structure Follows (whole : List Frame × Option Response) (session : Session)
    (events : List LoopEvent) : Prop where
  frames : whole.1 = events.filterMap LoopEvent.frame ++ session.remaining.1
  response : whole.2.toList = events.filterMap LoopEvent.response ++ session.remaining.2.toList

theorem Follows.next (h : Follows whole session events)
    (hf : session.remaining.1 = es.filterMap LoopEvent.frame ++ x.remaining.1)
    (hr : session.remaining.2.toList =
      es.filterMap LoopEvent.response ++ x.remaining.2.toList) :
    Follows whole x (events ++ es) where
  frames := by rw [h.frames, hf, List.filterMap_append, List.append_assoc]
  response := by rw [h.response, hr, List.filterMap_append, List.append_assoc]

theorem remaining_open (h : session.state ≠ .closed) :
    session.remaining = handleRequests session.input := if_neg h

theorem remaining_closed (h : session.state = .closed) : session.remaining = ([], none) :=
  if_pos h

theorem Follows.step (h : Follows whole session events)
    (hs : SessionStep b b' (some session) o' es answers) :
    ∃ x, o' = some x ∧ Follows whole x (events ++ es) := by
  have receiving (hst : session.state = .receiving) : session.state ≠ .closed := by
    rw [hst]
    exact SessionState.noConfusion
  cases hs with
  | same =>
    rw [List.append_nil]
    exact ⟨session, rfl, h⟩
  | closed hst hr | badMagic hst hr | tooLarge hst hr =>
    refine ⟨_, rfl, h.next ?_ ?_⟩ <;>
    · rw [remaining_open (receiving hst), handleRequests_eq, hr, remaining_closed rfl]
      rfl
  | answered hst hr he =>
    refine ⟨_, rfl, h.next ?_ ?_⟩ <;>
    · rw [remaining_open (receiving hst), handleRequests_eq, hr,
        remaining_open (by exact receiving hst)]
      rfl
  | called hst hr hc hop =>
    refine ⟨_, rfl, h.next ?_ ?_⟩ <;>
    · rw [remaining_open (receiving hst), handleRequests_eq, hr, remaining_open (by nofun)]
      rfl
  | reply hst hc hpc =>
    have hopen : session.state ≠ .closed := by
      rw [hst]
      exact SessionState.noConfusion
    refine ⟨_, rfl, h.next ?_ ?_⟩ <;>
    · rw [remaining_open hopen, remaining_open (by nofun)]
      rfl

theorem session_follows_loop (h₀ : b₀.sessions[s]? = some session₀)
    (hst : session₀.state = .receiving) (hr : exec step b₀ acts = some b) :
    ∃ session, b.sessions[s]? = some session ∧
      Follows (handleRequests session₀.input) session (collect step (loopEvents s) b₀ acts) := by
  have init : Follows (handleRequests session₀.input) session₀ [] := by
    have hopen : session₀.remaining = handleRequests session₀.input := by
      apply remaining_open
      rw [hst]
      exact SessionState.noConfusion
    exact ⟨congrArg Prod.fst hopen.symm, congrArg (fun x => x.2.toList) hopen.symm⟩
  apply collect_invariant (J := fun b es => ∃ session, b.sessions[s]? = some session ∧
    Follows (handleRequests session₀.input) session es) (loopEvents s) _ ⟨_, h₀, init⟩ hr
  rintro b a b' es ⟨session, hs, hf⟩ hb
  have hstep := (step_server hb).forSession s
  rw [hs] at hstep
  exact hf.step hstep

/-- What a session has sent matches what its loop did, response by response. -/
def Matching : Option Session → List LoopEvent → Prop
  | none, events => events = []
  | some session, events =>
    events.map LoopEvent.opcode = session.output.map Response.opcode ++ session.pending ∧
      ∀ r ∈ session.output, r.Short

theorem pending_receiving (h : session.state = .receiving) : session.pending = [] := by
  rw [Session.pending, h]

theorem pending_calling (h : session.state = .calling opcode name i) :
    session.pending = [opcode] := by
  rw [Session.pending, h]

theorem replyTo_opcode (opcode : UInt8) (a : Answer) : (replyTo opcode a).opcode = opcode := by
  cases a with
  | message m => cases m <;> rfl
  | _ => rfl

theorem errorResponse_short {errorMessage : String}
    (h : errorMessage.toUTF8.toList.length < 2 ^ 16) :
    (errorResponse opcode errorCode errorMessage).Short := h

theorem replyTo_short (opcode : UInt8) (h : a.Short) : (replyTo opcode a).Short := by
  cases a with
  | message m =>
    cases m with
    | none => exact errorResponse_short (by decide +kernel)
    | some m => exact h
  | pushed | removed => exact Nat.two_pow_pos 16

theorem Matching.receiving (h : Matching (some session) events)
    (hst : session.state = .receiving) :
    events.map LoopEvent.opcode = session.output.map Response.opcode := by
  rw [h.1, pending_receiving hst, List.append_nil]

theorem Matching.send (h : Matching (some session) events)
    (hp : events.map LoopEvent.opcode ++ es.map LoopEvent.opcode =
      session.output.map Response.opcode ++ [r.opcode]) (hr : r.Short)
    (ho : x.output = session.output ++ [r]) (hx : x.pending = []) :
    Matching (some x) (events ++ es) := by
  refine ⟨?_, ?_⟩
  · rw [List.map_append, hp, ho, hx, List.map_append, List.append_nil]
    rfl
  · intro r' hr'
    rw [ho] at hr'
    rcases List.mem_append.1 hr' with hr' | hr'
    · exact h.2 r' hr'
    · rw [List.mem_singleton.1 hr']
      exact hr

theorem Matching.step (h : Matching o events) (hs : SessionStep b b' o o' es answers)
    (hshort : ∀ name i c, b.callOf name i = some c → c.pc.Short) :
    Matching o' (events ++ es) := by
  cases hs with
  | same =>
    rw [List.append_nil]
    exact h
  | connect input =>
    obtain rfl : events = [] := h
    exact ⟨rfl, fun r hr => by cases hr⟩
  | closed hst hr =>
    rw [List.append_nil]
    refine ⟨?_, h.2⟩
    rw [h.receiving hst]
    exact (List.append_nil _).symm
  | badMagic hst hr | tooLarge hst hr =>
    have hp := h.receiving hst
    exact h.send (hp ▸ rfl) (errorResponse_short (by decide +kernel)) rfl rfl
  | answered hst hr he =>
    refine h.send ?_ he.short rfl (pending_receiving hst)
    rw [h.receiving hst, he.opcode]
    rfl
  | called hst hr hc hop =>
    refine ⟨?_, h.2⟩
    rw [List.map_append, h.receiving hst]
    rfl
  | reply hst hc hpc =>
    have hp := h.1
    rw [pending_calling hst] at hp
    have ha := hshort _ _ _ hc
    rw [hpc] at ha
    refine h.send ?_ (replyTo_short _ ha) rfl rfl
    rw [hp, replyTo_opcode, List.map_nil, List.append_nil]

/-- Each PULL answered OK carries the text that the topic gave for it. -/
structure Recalls (b : Broker) (session : Session) (answers : List (Nat × Answer)) : Prop where
  pulls : ∀ (k : Nat) (r : Response), session.output[k]? = some r → r.opcode = Opcode.pull →
    r.errorCode = .ok → ∃ m, (k, .message (some m)) ∈ answers ∧ r.data = m.text
  call : ∀ opcode name i, session.state = .calling opcode name i → ∃ c,
    b.callOf name i = some c ∧ (opcode = Opcode.pull → ∃ p, c.operation = .read p)

theorem ServerStep.operation_kept (h : ServerStep b a b') (hc : b.callOf name i = some c) :
    ∃ d, b'.callOf name i = some d ∧ d.operation = c.operation := by
  rcases h.callOf_kept hc with hc | ⟨t, pc, e, -, -, hd, -, ht⟩
  · exact ⟨c, hc, rfl⟩
  · exact ⟨{ c with pc := pc }, callOf_advanced ht hd, rfl⟩

theorem Recalls.mono (h : Recalls b session answers) :
    ∀ (k : Nat) (r : Response), session.output[k]? = some r → r.opcode = Opcode.pull →
      r.errorCode = .ok → ∃ m, (k, .message (some m)) ∈ answers ++ as ∧ r.data = m.text := by
  intro k r hk hop hok
  obtain ⟨m, hm, hd⟩ := h.pulls k r hk hop hok
  exact ⟨m, List.mem_append_left _ hm, hd⟩

theorem Recalls.send (h : Recalls b session answers) (ho : x.output = session.output ++ [r])
    (hst : ∀ opcode name i, x.state ≠ .calling opcode name i)
    (hr : r.opcode = Opcode.pull → r.errorCode = .ok →
      ∃ m, (session.output.length, .message (some m)) ∈ as ∧ r.data = m.text) :
    Recalls b' x (answers ++ as) where
  pulls := by
    intro k r' hk hop hok
    rw [ho] at hk
    rcases Nat.lt_or_ge k session.output.length with hlt | hge
    · rw [List.getElem?_append_left hlt] at hk
      exact h.mono k r' hk hop hok
    · rw [List.getElem?_append_right hge] at hk
      obtain rfl := List.mem_singleton.1 (List.mem_of_getElem? hk)
      have hz : k - session.output.length = 0 := Nat.lt_one_iff.1 (List.getElem?_eq_some_iff.1 hk).1
      obtain rfl : k = session.output.length := by omega
      obtain ⟨m, hm, hd⟩ := hr hop hok
      exact ⟨m, List.mem_append_right _ hm, hd⟩
  call opcode name i hx := (hst opcode name i hx).elim

theorem replyTo_pull (ha : ∃ m, a = .message m) (hok : (replyTo opcode a).errorCode = .ok) :
    ∃ m, a = .message (some m) ∧ (replyTo opcode a).data = m.text := by
  obtain ⟨m, rfl⟩ := ha
  cases m with
  | none => cases hok
  | some m => exact ⟨m, rfl, rfl⟩

theorem Recalls.step (h : ∀ session, o = some session → Recalls b session answers)
    (hs : SessionStep b b' o o' es as) (hb : ServerStep b a b')
    (hco : b.registry.All Topic.Coherent) (hx : o' = some x) : Recalls b' x (answers ++ as) := by
  cases hs with
  | same =>
    have hx := h x hx
    refine ⟨hx.mono, fun opcode name i hst => ?_⟩
    obtain ⟨c, hc, hop⟩ := hx.call opcode name i hst
    obtain ⟨d, hd, he⟩ := hb.operation_kept hc
    exact ⟨d, hd, fun hp => he.symm ▸ hop hp⟩
  | connect input =>
    cases hx
    exact ⟨fun k r hk => (by cases hk), fun opcode name i hst => by cases hst⟩
  | closed hst hr =>
    cases hx
    exact ⟨(h _ rfl).mono, fun opcode name i hst => by cases hst⟩
  | badMagic hst hr | tooLarge hst hr =>
    cases hx
    exact (h _ rfl).send rfl (fun _ _ _ hst => by cases hst) fun _ hok => by cases hok
  | answered hst hr he =>
    cases hx
    exact (h _ rfl).send rfl (fun _ _ _ hc => by cases hst.symm.trans hc)
      fun _ hok => (he.errorCode hok).elim
  | called hst hr hc hop =>
    cases hx
    refine ⟨(h _ rfl).mono, fun opcode name i hst => ?_⟩
    cases hst
    exact ⟨_, hc, fun hp => ⟨_, hop hp⟩⟩
  | reply hst hc hpc =>
    cases hx
    apply (h _ rfl).send rfl (fun _ _ _ hst => by cases hst)
    intro hop hok
    rw [replyTo_opcode] at hop
    obtain ⟨d, hd, hread⟩ := (h _ rfl).call _ _ _ hst
    obtain rfl := Option.some.inj (hc.symm.trans hd)
    obtain ⟨p, hp⟩ := hread hop
    obtain ⟨t, ht, hcall⟩ := Option.bind_eq_some_iff.1 hc
    have hsound := (hco.getTopic ht).sound _ _ hcall
    rw [Call.Sound, hp, hpc] at hsound
    obtain ⟨m, rfl, hm⟩ := replyTo_pull hsound hok
    exact ⟨m, List.mem_singleton_self _, hm⟩

theorem matching_of_exec (hr : exec step {} acts = some b) :
    Matching b.sessions[s]? (collect step (loopEvents s) {} acts) := by
  have init : Registry.All (fun t => t.Coherent ∧ t.ShortTexts) ({} : Broker).registry ∧
      Matching ({} : Broker).sessions[s]? [] := ⟨Registry.all_nil, rfl⟩
  have hinv := collect_invariant (J := fun b es => b.registry.All
    (fun t => t.Coherent ∧ t.ShortTexts) ∧ Matching b.sessions[s]? es) (loopEvents s) ?_ init hr
  · exact hinv.2
  · rintro b a b' es ⟨htopics, hm⟩ hs
    constructor
    · exact topics_rule ⟨Topic.coherent_init _, Topic.shortTexts_init _⟩
        (fun _ _ _ h hs => ⟨h.1.step hs, h.2.step h.1 hs⟩) b a b' htopics hs
    · apply hm.step ((step_server hs).forSession s)
      intro name i c hc
      obtain ⟨t, ht, hc⟩ := Option.bind_eq_some_iff.1 hc
      exact (htopics.getTopic ht).2.answers i c hc

theorem recalls_of_exec (hr : exec step {} acts = some b) (hs : b.sessions[s]? = some session) :
    Recalls b session (collect step (topicAnswers s) {} acts) := by
  have init : Registry.All Topic.Coherent ({} : Broker).registry ∧
      ∀ session, ({} : Broker).sessions[s]? = some session → Recalls {} session [] :=
    ⟨Registry.all_nil, fun _ hx => nomatch hx⟩
  have hinv := collect_invariant (J := fun b as => b.registry.All Topic.Coherent ∧
    ∀ session, b.sessions[s]? = some session → Recalls b session as) (topicAnswers s) ?_ init hr
  · exact hinv.2 session hs
  · rintro b a b' as ⟨hco, h⟩ hs
    have hserver := step_server hs
    constructor
    · exact topics_rule (Topic.coherent_init _) (fun _ _ _ h hs => h.step hs) b a b' hco hs
    · intro x hx
      exact Recalls.step h (hserver.forSession s) hserver hco hx

theorem value_eq_ok {e : ErrorCode} (h : e.value = ErrorCode.ok.value) : e = .ok := by
  cases e <;> first | rfl | exact absurd h (by decide)

/-- At every moment a client that receives the bytes of a session finds a response for each thing
that the loop did, apart from a request that is being handled. -/
theorem responses_decode (hr : exec step {} acts = some b) (hs : b.sessions[s]? = some session)
    (sent : List (Response × Vector UInt8 3)) (hsent : sent.map Prod.fst = session.output) :
    (∀ x ∈ sent, x.1.Short) ∧ receiveResponses session.output.length
        (sent.flatMap fun x => x.1.bytes x.2) =
          some (session.output.map Response.received, []) ∧
      (collect step (loopEvents s) {} acts).map LoopEvent.opcode =
        session.output.map Response.opcode ++ session.pending := by
  have hmatch := matching_of_exec (s := s) hr
  rw [hs] at hmatch
  have hshort : ∀ x ∈ sent, x.1.Short := by
    intro x hx
    exact hmatch.2 x.1 (hsent ▸ List.mem_map_of_mem hx)
  refine ⟨hshort, ?_, hmatch.1⟩
  rw [← hsent, List.length_map, List.map_map]
  exact Response.receiveResponses_bytes sent hshort

theorem pulled_text (hr : exec step {} acts = some b) (hs : b.sessions[s]? = some session)
    (hk : (session.output.map Response.received)[k]? = some (header, data))
    (hop : header.opcode = Opcode.pull) (hok : header.errorCode = ErrorCode.ok.value) :
    ∃ m, (k, .message (some m)) ∈ collect step (topicAnswers s) {} acts ∧
      data = if m.text = [] then none else some m.text := by
  rw [List.getElem?_map] at hk
  obtain ⟨r, hr', he⟩ := Option.map_eq_some_iff.1 hk
  cases he
  obtain ⟨m, hm, hd⟩ := (recalls_of_exec hr hs).pulls k r hr' hop (value_eq_ok hok)
  refine ⟨m, hm, ?_⟩
  rw [hd]

end Broker
end Rpc
end Noctua
