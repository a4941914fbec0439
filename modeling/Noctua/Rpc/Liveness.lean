import Noctua.Library.Potential
import Noctua.Library.Table
import Noctua.Rpc.PartitionRange
import Noctua.Rpc.Producers
import Mathlib.Algebra.Order.Ring.Nat

namespace Noctua.Rpc
open Transition Potential
set_option autoImplicit true

/-- A byte pays for a step: the twelve of a header for its `receive`, the ten steps of a
`remove` and the response. -/
def Session.stepsLeft (session : Session) : Nat :=
  match session.state with
  | .receiving => session.input.length + 1
  | .calling _ _ _ => session.input.length + 2
  | .closed => 0

theorem Session.stepsLeft_receiving {session : Session} (h : session.state = .receiving) :
    session.stepsLeft = session.input.length + 1 := by
  rw [stepsLeft, h]

theorem Session.stepsLeft_calling {session : Session} (h : session.state = .calling opcode n i) :
    session.stepsLeft = session.input.length + 2 := by
  rw [stepsLeft, h]

namespace Registry
variable {reg reg' : Registry} {name : Text}

def callSteps (t : Topic) : Nat := (t.calls.map fun c => c.pc.remaining).sum

def stepsLeft (reg : Registry) : Nat := (reg.map fun x => callSteps x.2).sum

def Distinct (reg : Registry) : Prop := (reg.map Prod.fst).Nodup

theorem Distinct.append (h : reg.Distinct) (hn : reg.getTopic name = none) (t : Topic) :
    Distinct (reg ++ [(name, t)]) := by
  rw [Distinct, List.map_append]
  apply List.Nodup.append h (List.nodup_singleton name)
  rw [List.disjoint_singleton]
  intro hm
  obtain ⟨x, hx, rfl⟩ := List.mem_map.1 hm
  exact bne_iff_ne.1 (List.lookup_eq_none_iff.1 hn x hx) rfl

theorem stepsLeft_update (hd : reg.Distinct) (ht : reg.getTopic name = some t) (u : Topic) :
    (reg.update name u).stepsLeft + callSteps t = reg.stepsLeft + callSteps u :=
  Table.sum_update callSteps hd ht u

theorem stepsLeft_append (reg : Registry) (name : Text) (n : Nat) :
    stepsLeft (reg ++ [(name, Topic.init n)]) = reg.stepsLeft := by
  rw [stepsLeft, List.map_append, List.sum_append]
  rfl

end Registry

theorem callSteps_invoked (t : Topic) (s : Nat) (op : Operation) (p : UInt16) :
    Registry.callSteps (t.invoked s op p) = Registry.callSteps t + op.start.remaining := by
  change ((t.calls ++ [_]).map _).sum = _
  rw [List.map_append, List.sum_append, List.map_singleton, List.sum_singleton]
  rfl

theorem callSteps_advanced {t : Topic} {c : Call} {e : Effect} (hc : t.calls[i]? = some c)
    (hn : Topic.Next t i c pc e) :
    Registry.callSteps (t.advanced i c pc e) + 1 ≤ Registry.callSteps t := by
  have hsum := sum_map_set (y := { c with pc := pc }) (fun c => c.pc.remaining) hc
  have hless := hn.remaining
  have hcalls : (t.advanced i c pc e).calls = t.calls.set i { c with pc := pc } := by
    rw [Topic.advanced, Topic.setPc, Topic.perform_calls]
  rw [Registry.callSteps, Registry.callSteps, hcalls]
  dsimp only at hsum
  omega

theorem start_remaining (op : Operation) : op.start.remaining ≤ 10 := by
  cases op <;> simp [Operation.start, Pc.remaining]

theorem receive_request_length (h : receive input = .request f rest) :
    rest.length + sizeofRequestHeader ≤ input.length := by
  rw [receive] at h
  split at h
  · cases h
  · split at h
    · cases h
    · split at h
      · cases h
      · split at h
        · cases h
        · cases h
          rw [List.length_drop, List.length_drop]
          omega

namespace Broker
variable {b b' : Broker} {a : BrokerAction} {session : Session} {s : Nat}

def stepsLeft (b : Broker) : Nat :=
  b.registry.stepsLeft + (b.sessions.map Session.stepsLeft).sum

/-- The steps that an accepted connection pays for: its own, one for each byte, and the end. -/
def paidSteps : BrokerAction → Nat
  | .connect input => input.length + 2
  | _ => 0

theorem stepsLeft_setSession (hs : b.sessions[s]? = some session) (x : Session) :
    (b.setSession s x).stepsLeft + session.stepsLeft = b.stepsLeft + x.stepsLeft := by
  have hsum := sum_map_set (y := x) Session.stepsLeft hs
  simp only [stepsLeft, setSession]
  omega

theorem distinct_step (h : b.registry.Distinct) (hs : b.step a = some b') :
    b'.registry.Distinct := by
  have update {reg : Registry} (n : Text) (u : Topic) (h : reg.Distinct) :
      (reg.update n u).Distinct := Table.Distinct.update h n u
  cases step_server hs with
  | connect | closed | badMagic | tooLarge | answered | reply => exact h
  | advance ht hu | failStore ht hu => exact update _ _ h
  | called hs hr hd ht hu =>
    apply update
    obtain ⟨-, ⟨rfl, -⟩ | ⟨hnone, -, -, rfl⟩⟩ := handleRequest_call hd
    · exact h
    · exact h.append hnone _

theorem stepsLeft_less (hs : b.sessions[s]? = some session)
    (hx : x.stepsLeft + 1 ≤ session.stepsLeft) :
    (b.setSession s x).stepsLeft + 1 ≤ b.stepsLeft := by
  have hsum := stepsLeft_setSession hs x
  omega

theorem stepsLeft_advanced {name : Text} {t u : Topic} (hd : b.registry.Distinct)
    (ht : b.registry.getTopic name = some t)
    (hu : Registry.callSteps u + 1 ≤ Registry.callSteps t) :
    (b.advanced name u).stepsLeft + 1 ≤ b.stepsLeft := by
  have hsum := Registry.stepsLeft_update hd ht u
  simp only [stepsLeft, advanced]
  omega

/-- A request is worth its twelve bytes: one step to take it and ten for its call at most. -/
theorem stepsLeft_called {reg : Registry} {t : Topic} {env : HandlerEnv} {f : Frame}
    (hd : b.registry.Distinct) (hs : b.receiving s = some session)
    (hr : Rpc.receive session.input = .request f rest)
    (hreq : handleRequest b.registry env f = (reg, .call name op))
    (ht : reg.getTopic name = some t) (p : UInt16) :
    (b.called reg s { session with input := rest } f.opcode name t.calls.length
      (t.invoked s op p)).stepsLeft + 1 ≤ b.stepsLeft := by
  obtain ⟨hs, hst⟩ := receiving_eq_some.1 hs
  have hlen := receive_request_length hr
  have hstart := start_remaining op
  have hreg : reg.Distinct ∧ reg.stepsLeft = b.registry.stepsLeft := by
    obtain ⟨-, ⟨rfl, -⟩ | ⟨hnone, -, -, rfl⟩⟩ := handleRequest_call hreq
    · exact ⟨hd, rfl⟩
    · exact ⟨hd.append hnone _, Registry.stepsLeft_append _ _ _⟩
  have hupdate := Registry.stepsLeft_update hreg.1 ht (t.invoked s op p)
  rw [callSteps_invoked] at hupdate
  have hsum := sum_map_set (y := { session with
    input := rest, state := .calling f.opcode name t.calls.length }) Session.stepsLeft hs
  rw [Session.stepsLeft_receiving hst, Session.stepsLeft_calling rfl] at hsum
  have h12 : sizeofRequestHeader = 12 := rfl
  simp only [stepsLeft, called, setSession]
  dsimp only at hsum
  omega

theorem stepsLeft_step (hd : b.registry.Distinct) (h : b.step a = some b') :
    b'.stepsLeft + 1 ≤ b.stepsLeft + paidSteps a := by
  cases step_server h with
  | connect input =>
    simp only [stepsLeft, paidSteps, List.map_append, List.sum_append, List.map_singleton,
      List.sum_singleton, Session.stepsLeft]
    omega
  | closed hs hr | badMagic hs hr | tooLarge hs hr =>
    obtain ⟨hs, hst⟩ := receiving_eq_some.1 hs
    apply stepsLeft_less hs
    rw [Session.stepsLeft_receiving hst]
    exact Nat.succ_le_succ (Nat.zero_le _)
  | answered hs hr hreq =>
    obtain ⟨hs, hst⟩ := receiving_eq_some.1 hs
    apply stepsLeft_less hs
    have hlen := receive_request_length hr
    have h12 : sizeofRequestHeader = 12 := rfl
    rw [Session.stepsLeft_receiving hst, Session.stepsLeft_receiving (by exact hst)]
    dsimp only [Session.send]
    omega
  | called hs hr hreq ht hu =>
    obtain ⟨-, rfl⟩ := Topic.invoke_cases hu
    exact stepsLeft_called hd hs hr hreq ht _
  | advance ht hu =>
    obtain ⟨c, pc, e, hc, hn, rfl⟩ := Topic.advance_cases hu
    exact stepsLeft_advanced hd ht (callSteps_advanced hc hn)
  | failStore ht hu =>
    obtain ⟨c, pc, e, hc, -, hn, rfl⟩ := Topic.failStore_cases hu
    exact stepsLeft_advanced hd ht (callSteps_advanced hc hn)
  | reply hs hc ht hcall hpc =>
    apply stepsLeft_less hs
    rw [Session.stepsLeft_calling hc, Session.stepsLeft_receiving rfl]
    exact Nat.le_refl _

/-- The server goes on only as long as bytes come in: a run has one step for each byte at most
and two for each connection. -/
theorem steps_bounded (hr : exec step {} acts = some b) :
    acts.length ≤ (acts.map paidSteps).sum := by
  have start : ({} : Broker).registry.Distinct := List.nodup_nil
  have keep (b a b') (hd : Registry.Distinct (registry b)) (hs : step b a = some b') :
      Registry.Distinct (registry b') := distinct_step hd hs
  have drop (b a b') (hd : Registry.Distinct (registry b)) (hs : step b a = some b') :
      stepsLeft b' + 1 ≤ stepsLeft b + paidSteps a := stepsLeft_step hd hs
  have hb := exec_bounded keep drop start hr
  have hz : ({} : Broker).stepsLeft = 0 := rfl
  omega

/-- Nothing is left to do but to wait for a connection. -/
def Quiescent (b : Broker) : Prop :=
  ∀ a b', b.step a = some b' → ∃ input, a = .connect input

/-- The handling of a frame stays inside its buffer, passes its checks and names a partition. -/
def Handles (b : Broker) (env : HandlerEnv) (f : Frame) : Prop :=
  match handleRequest b.registry env f with
  | (_, .respond _) => True
  | (reg, .call name op) => op.asserts = true ∧ ∀ t, reg.getTopic name = some t →
      (op.partitionIdx requestHash t.storage.length).toNat < t.storage.length
  | (_, .overflow) | (_, .abort) => False

theorem Handles.receives {env : HandlerEnv} {f : Frame} (h : b.Handles env f)
    (hs : b.receiving s = some session) (hr : Rpc.receive session.input = .request f rest) :
    ∃ b', b.step (.receive s env) = some b' := by
  have hstep : b.step (.receive s env) = b.handle s { session with input := rest } env f := by
    simp only [step, hs, Option.bind_some, hr]
  rw [hstep, handle]
  cases hd : handleRequest b.registry env f with
  | mk reg d =>
    rw [Handles, hd] at h
    cases d with
    | respond r => exact ⟨_, rfl⟩
    | call name op =>
      obtain ⟨t, ht⟩ : ∃ t, reg.getTopic name = some t := by
        obtain ⟨-, ⟨rfl, ht⟩ | ⟨hnone, -, -, rfl⟩⟩ := handleRequest_call hd
        · exact ht
        · exact ⟨_, Registry.getTopic_append_self hnone⟩
      have hu : t.step requestHash (.invoke s op) = some
          (t.invoked s op (op.partitionIdx requestHash t.storage.length)) :=
        if_pos ⟨h.1, h.2 t ht⟩
      exact ⟨_, Option.bind_eq_some_iff.2 ⟨t, ht, Option.map_eq_some_iff.2 ⟨_, hu, rfl⟩⟩⟩
    | overflow => exact h.elim
    | abort => exact h.elim

section
variable (hq : b.Quiescent)
include hq

theorem Quiescent.finished (hco : b.registry.All Topic.Coherent)
    (hnull : ∀ name t, b.registry.getTopic name = some t →
      ∀ c ∈ t.calls, ¬ t.DereferencesNull c) {c : Call} (hc : b.callOf name i = some c) :
    c.pc.isFinished = true := by
  obtain ⟨t, ht, hc⟩ := Option.bind_eq_some_iff.1 hc
  have hstuck : ∀ d ∈ t.calls, ¬ t.CanStep d := by
    intro d hm hcan
    obtain ⟨j, hd⟩ := List.mem_iff_getElem?.1 hm
    have hv := ((hco.getTopic ht).sound j d hd).visits
    obtain ⟨pc, e, hn⟩ := hcan.next (i := j) hv (hnull name t ht d hm)
    have hadvance : t.step requestHash (.advance j) = some (t.advanced j d pc e) := by
      rw [Topic.step, hd, Option.bind_some, hn, Option.map_some]
    obtain ⟨input, ha⟩ := hq (.advance name j) _
      (Option.bind_eq_some_iff.2 ⟨t, ht, Option.map_eq_some_iff.2 ⟨_, hadvance, rfl⟩⟩)
    cases ha
  exact Topic.finished_of_stuck hstuck (List.mem_of_getElem? hc)

/-- Where the server cannot go on and no session stands before undefined behaviour, every
session is closed. -/
theorem Quiescent.closed (hatt : b.Attended) (hco : b.registry.All Topic.Coherent)
    (hnull : ∀ name t, b.registry.getTopic name = some t →
      ∀ c ∈ t.calls, ¬ t.DereferencesNull c)
    (hdef : ∀ s f, b.frameOf s = some f → ∃ env, b.Handles env f)
    (hs : b.sessions[s]? = some session) : session.state = .closed := by
  have env : HandlerEnv := ⟨true, 0, fun _ => 0, .replicate 5 0⟩
  cases hst : session.state with
  | closed => rfl
  | calling opcode name i =>
    obtain ⟨c, hc, -⟩ := hatt.serves s session opcode name i hs hst
    have hf := hq.finished hco hnull hc
    cases hpc : c.pc with
    | finished ans =>
      have hc' : ((b.registry.getTopic name).bind fun t => t.calls[i]?) = some c := hc
      have hstep : b.step (.reply s) = some (b.setSession s
          { session.send (replyTo opcode ans) with state := .receiving }) := by
        simp only [step, hs, Option.bind_some, hst, hc', hpc]
      obtain ⟨input, ha⟩ := hq _ _ hstep
      cases ha
    | _ =>
      rw [hpc] at hf
      cases hf
  | receiving =>
    have hrecv := receiving_eq_some.2 ⟨hs, hst⟩
    obtain ⟨env, b', hstep⟩ : ∃ env b', b.step (.receive s env) = some b' := by
      cases hr : Rpc.receive session.input with
      | request f rest =>
        obtain ⟨env, hh⟩ := hdef s f (by rw [frameOf, hrecv, Option.bind_some, hr])
        exact ⟨env, hh.receives hrecv hr⟩
      | _ =>
        refine ⟨env, ?_⟩
        simp only [step, hrecv, Option.bind_some, hr]
        exact ⟨_, rfl⟩
    obtain ⟨input, ha⟩ := hq _ _ hstep
    cases ha

end

section
variable (hatt : b.Attended) (hcl : ∀ session ∈ b.sessions, session.state = .closed)
include hatt hcl

theorem finished_of_closed {c : Call} (hc : b.callOf name i = some c) :
    c.pc.isFinished = true := by
  by_contra hn
  obtain ⟨s, session, hs, hst⟩ := hatt.waits name i c hc (Bool.eq_false_of_not_eq_true hn)
  cases (hcl session (List.mem_of_getElem? hs)).symm.trans hst

theorem quiescent_of_closed : b.Quiescent := by
  intro a b' h
  have receiving {s : Nat} {session : Session} (hs : b.receiving s = some session) : False := by
    obtain ⟨hs, hst⟩ := receiving_eq_some.1 hs
    cases (hcl session (List.mem_of_getElem? hs)).symm.trans hst
  have moving {name : Text} {i : Nat} {t : Topic} {c : Call} {pc : Pc} {e : Effect}
      (ht : b.registry.getTopic name = some t) (hc : t.calls[i]? = some c)
      (hn : Topic.Next t i c pc e) : False :=
    Bool.noConfusion (hn.not_finished.symm.trans
      (finished_of_closed hatt hcl (callOf_eq_some ht hc)))
  cases step_server h with
  | connect input => exact ⟨input, rfl⟩
  | closed hs | badMagic hs | tooLarge hs | answered hs | called hs => exact (receiving hs).elim
  | advance ht hu =>
    obtain ⟨c, pc, e, hc, hn, -⟩ := Topic.advance_cases hu
    exact (moving ht hc hn).elim
  | failStore ht hu =>
    obtain ⟨c, pc, e, hc, -, hn, -⟩ := Topic.failStore_cases hu
    exact (moving ht hc hn).elim
  | reply hs hc => cases (hcl _ (List.mem_of_getElem? hs)).symm.trans hc

end

/-- Nothing is left to do, and nobody stands before undefined behaviour: a `remove` before an empty
partition, or a frame that would leave its buffer or its partitions or fail a check. -/
structure RunsToEnd (b : Broker) : Prop where
  quiescent : b.Quiescent
  fronts : ∀ name t, b.registry.getTopic name = some t → ∀ c ∈ t.calls, ¬ t.DereferencesNull c
  handles : ∀ s f, b.frameOf s = some f → ∃ env, b.Handles env f

theorem RunsToEnd.closed (h : b.RunsToEnd) (hatt : b.Attended)
    (hco : b.registry.All Topic.Coherent) (hs : b.sessions[s]? = some session) :
    session.state = .closed := h.quiescent.closed hatt hco h.fronts h.handles hs

theorem runsToEnd_of_closed (hatt : b.Attended)
    (hcl : ∀ session ∈ b.sessions, session.state = .closed) : b.RunsToEnd where
  quiescent := quiescent_of_closed hatt hcl
  fronts := by
    intro name t ht c hc
    obtain ⟨i, hi⟩ := List.mem_iff_getElem?.1 hc
    have hf := finished_of_closed hatt hcl (callOf_eq_some ht hi)
    rintro ⟨-, hpc | hpc, -⟩ <;> rw [hpc] at hf <;> cases hf
  handles := by
    intro s f hf
    obtain ⟨session, hs, -⟩ := Option.bind_eq_some_iff.1 hf
    obtain ⟨hs, hst⟩ := receiving_eq_some.1 hs
    cases (hcl session (List.mem_of_getElem? hs)).symm.trans hst

/-- The frames that were handled, and a rejection that closed the session. -/
def RejectsLast (o : Option Session) (events : List LoopEvent) : Prop :=
  ∃ (frames : List Frame) (last : List LoopEvent), events = frames.map .handle ++ last ∧
    (last = [] ∨ (∃ e, last = [e] ∧ e.frame = none) ∧
      ∃ session, o = some session ∧ session.state = .closed)

theorem RejectsLast.step (h : RejectsLast o events) (hs : SessionStep b b' o o' es answers) :
    RejectsLast o' (events ++ es) := by
  obtain ⟨frames, last, he, hlast⟩ := h
  have opened {session : Session} (ho : o = some session) (hst : session.state ≠ .closed) :
      last = [] := by
    rcases hlast with hl | ⟨-, x, hx, hc⟩
    · exact hl
    · obtain rfl := Option.some.inj (ho.symm.trans hx)
      exact (hst hc).elim
  have receiving {session : Session} (hst : session.state = .receiving) :
      session.state ≠ .closed := by
    rw [hst]
    exact SessionState.noConfusion
  have handled (f : Frame) : RejectsLast o' (frames.map .handle ++ [] ++ [.handle f]) :=
    ⟨frames ++ [f], [], by rw [List.append_nil, List.append_nil, List.map_append]; rfl, .inl rfl⟩
  cases hs with
  | same =>
    rw [List.append_nil]
    exact ⟨frames, last, he, hlast⟩
  | connect input =>
    rcases hlast with rfl | ⟨-, x, hx, -⟩
    · exact ⟨frames, [], by rw [he, List.append_nil], .inl rfl⟩
    · cases hx
  | closed hst hr =>
    obtain rfl := opened rfl (receiving hst)
    exact ⟨frames, [], by rw [he, List.append_nil], .inl rfl⟩
  | badMagic hst hr | tooLarge hst hr =>
    obtain rfl := opened rfl (receiving hst)
    exact ⟨frames, _, by rw [he, List.append_nil], .inr ⟨⟨_, rfl, rfl⟩, _, rfl, rfl⟩⟩
  | answered hst hr | called hst hr =>
    obtain rfl := opened rfl (receiving hst)
    rw [he]
    exact handled _
  | reply hst hc hpc =>
    obtain rfl := opened rfl (by rw [hst]; exact SessionState.noConfusion)
    exact ⟨frames, [], by rw [he, List.append_nil], .inl rfl⟩

theorem rejection_opcode {e : LoopEvent} (h : e.frame = none) :
    [e].map LoopEvent.opcode = ([e].filterMap LoopEvent.response).map Response.opcode := by
  cases e with
  | handle f => cases h
  | badMagic | tooLarge => rfl

theorem RejectsLast.opcodes (h : RejectsLast o events) : events.map LoopEvent.opcode =
    (events.filterMap LoopEvent.frame).map Frame.opcode ++
      (events.filterMap LoopEvent.response).map Response.opcode := by
  obtain ⟨frames, last, rfl, hlast⟩ := h
  have hframes : (frames.map LoopEvent.handle).filterMap LoopEvent.frame = frames := by
    rw [List.filterMap_map]
    exact List.filterMap_some
  have hnone : (frames.map LoopEvent.handle).filterMap LoopEvent.response = [] := by
    rw [List.filterMap_map, List.filterMap_eq_nil_iff]
    exact fun _ _ => rfl
  have hopcodes : (frames.map LoopEvent.handle).map LoopEvent.opcode = frames.map Frame.opcode := by
    rw [List.map_map]
    rfl
  rw [List.map_append, List.filterMap_append, List.filterMap_append, hframes, hnone, hopcodes]
  rcases hlast with rfl | ⟨⟨e, rfl, he⟩, -⟩
  · simp
  · have hf : [e].filterMap LoopEvent.frame = [] := List.filterMap_cons_none he
    rw [hf, List.append_nil, List.nil_append, rejection_opcode he]

theorem rejectsLast_of_exec (hr : exec step {} acts = some b) (s : Nat) :
    RejectsLast b.sessions[s]? (collect step (loopEvents s) {} acts) := by
  have start : RejectsLast ({} : Broker).sessions[s]? [] := ⟨[], [], rfl, .inl rfl⟩
  exact collect_invariant (J := fun b es => RejectsLast b.sessions[s]? es) (loopEvents s)
    (fun _ _ _ _ h hs => h.step ((step_server hs).forSession s)) start hr

theorem attended_of_exec (hr : exec step {} acts = some b) : b.Attended :=
  exec_invariant (I := Attended) (fun _ _ _ h hs => h.step hs) attended_init hr

/-- A client whose session is closed has a response for each of its frames, in order. -/
theorem answered_of_closed (h₁ : exec step {} before = some b₁)
    (h₂ : exec step b₁ (.connect input :: acts) = some b)
    (hcl : ∀ session ∈ b.sessions, session.state = .closed) :
    ∃ session, b.sessions[b₁.sessions.length]? = some session ∧ session.state = .closed ∧
      session.output.map Response.opcode = (handleRequests input).1.map Frame.opcode ++
        (handleRequests input).2.toList.map Response.opcode := by
  obtain ⟨hr, session, hs, hf⟩ := session_of_connect h₁ h₂
  have hclosed := hcl session (List.mem_of_getElem? hs)
  refine ⟨session, hs, hclosed, ?_⟩
  have hmatch := matching_of_exec (s := b₁.sessions.length) hr
  rw [hs] at hmatch
  have hpending : session.pending = [] := by rw [Session.pending, hclosed]
  have hframes := hf.frames
  have hresponse := hf.response
  rw [remaining_closed hclosed, List.append_nil] at hframes
  rw [remaining_closed hclosed, Option.toList_none, List.append_nil] at hresponse
  rw [hframes, hresponse, ← (rejectsLast_of_exec hr _).opcodes, hmatch.1, hpending,
    List.append_nil]

/-- Where the server has nothing left to do and stands before no undefined behaviour, each client
has a response for each frame in its bytes, in order, and for the bytes that were rejected. -/
theorem every_request_answered (h₁ : exec step {} before = some b₁)
    (h₂ : exec step b₁ (.connect input :: acts) = some b) (hq : b.Quiescent)
    (hnull : ∀ name t, b.registry.getTopic name = some t →
      ∀ c ∈ t.calls, ¬ t.DereferencesNull c)
    (hdef : ∀ s f, b.frameOf s = some f → ∃ env, b.Handles env f) :
    ∃ session, b.sessions[b₁.sessions.length]? = some session ∧ session.state = .closed ∧
      session.output.map Response.opcode = (handleRequests input).1.map Frame.opcode ++
        (handleRequests input).2.toList.map Response.opcode := by
  obtain ⟨hr, -⟩ := session_of_connect h₁ h₂
  apply answered_of_closed h₁ h₂
  intro session hm
  obtain ⟨s, hs⟩ := List.mem_iff_getElem?.1 hm
  exact hq.closed (attended_of_exec hr) (coherent_of_exec hr) hnull hdef hs

/-- A PUSH is handled to its end and the connection is closed. -/
def handledPush : List BrokerAction :=
  let env : HandlerEnv := ⟨true, 0, fun _ => 0, .replicate 5 0⟩
  .receive 0 env :: List.replicate 6 (.advance [97] 0) ++ [.reply 0, .receive 0 env]

theorem steps_bounded_handledPush :
    (BrokerAction.connect Audited.pushFrame :: handledPush).length ≤
      ((BrokerAction.connect Audited.pushFrame :: handledPush).map paidSteps).sum := by
  obtain ⟨b, hr⟩ := Option.isSome_iff_exists.1
    (by decide +kernel : (exec step {} (.connect Audited.pushFrame :: handledPush)).isSome = true)
  exact steps_bounded hr

theorem every_request_answered_handledPush : ∃ b session,
    exec step {} (.connect Audited.pushFrame :: handledPush) = some b ∧
      b.sessions[0]? = some session ∧ session.output.map Response.opcode = [Opcode.push] := by
  have hr : (exec step {} (.connect Audited.pushFrame :: handledPush)).map
      (fun b => b.sessions.map Session.state) = some [.closed] := by decide +kernel
  obtain ⟨b, hr, hst⟩ := Option.map_eq_some_iff.1 hr
  have hcl : ∀ session ∈ b.sessions, session.state = .closed := by
    intro session hs
    have hm : session.state ∈ [SessionState.closed] := hst ▸ List.mem_map_of_mem hs
    exact List.mem_singleton.1 hm
  have hatt := attended_of_exec hr
  have hend := runsToEnd_of_closed hatt hcl
  have hstart : exec step {} [] = some ({} : Broker) := rfl
  obtain ⟨session, hs, -, hout⟩ := every_request_answered hstart hr
    hend.quiescent hend.fronts hend.handles
  refine ⟨b, session, hr, hs, hout.trans ?_⟩
  decide +kernel

end Broker
end Noctua.Rpc
