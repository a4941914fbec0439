import Noctua.Rpc.Conversation
import Noctua.Rpc.WriteAhead

namespace Noctua
open Transition
set_option autoImplicit true

/-- The call has changed its partition, or nothing but a failure can keep it from doing so. -/
inductive Call.Bound (c : Call) : Prop where
  | push (hop : c.operation = .push r padding)
  | store (hpc : c.pc = .store)
  | past (hpc : c.pc.pastStore = true)

theorem Call.Bound.changes {c : Call} {q : List Message} (h : c.Bound) (hs : c.Sound q)
    (hpc : c.pc = .finished a) : a.changes = true := by
  cases h with
  | push hop =>
    rw [Call.Sound, hop, hpc] at hs
    rw [show a = .pushed from hs]
    rfl
  | store hst => cases hst.symm.trans hpc
  | past hp =>
    rw [hpc] at hp
    exact hp

namespace Topic
variable {t : Topic} {c : Call} {e : Effect}

def stored (t : Topic) : List (List Message) × Wall.WallWriter := (t.storage, t.wallWriter)

theorem Next.ofStored (hn : Next t i c pc e) (hne : (t.advanced i c pc e).stored ≠ t.stored) :
    c.pc = .store ∨ c.pc = .mutate := by
  cases hn with
  | store hpc | failStore hpc => exact .inl hpc
  | push hpc | pop hpc => exact .inr hpc
  | _ => exact (hne rfl).elim

theorem Next.bound (hn : Next t i c pc e) (h : c.Bound) : Call.Bound { c with pc := pc } := by
  cases h with
  | push hop => exact .push hop
  | past hp => exact .past (hn.pastStore hp)
  | store hst =>
    apply Call.Bound.past
    rw [hn.afterStore hst]
    rfl

end Topic

namespace Rpc

/-- The opcode of the request that the session is handling or takes next. -/
def Session.handling (session : Session) : Option UInt8 :=
  match session.state with
  | .calling opcode _ _ => some opcode
  | .receiving =>
    match receive session.input with
    | .request f _ => some f.opcode
    | _ => none
  | .closed => none

namespace Broker
def stored (b : Broker) (name : Text) : Option (List (List Message) × Wall.WallWriter) :=
  (b.registry.getTopic name).map Topic.stored

def response (b : Broker) (s k : Nat) : Option Response :=
  b.sessions[s]?.bind fun session => session.output[k]?

/-- The action is a turn of session `s`, or of the call that it waits for. -/
def Turn (b : Broker) (s : Nat) : BrokerAction → Prop
  | .connect _ => False
  | .receive s' _ | .reply s' => s' = s
  | .advance name i | .failStore name i _ =>
    ∃ session opcode, b.sessions[s]? = some session ∧ session.state = .calling opcode name i

/-- A turn on a request that is rejected, or that only reads. The request is known by the number
of its response, and `final` is the end of the run. -/
inductive RejectedTurn (final b : Broker) (s : Nat) : BrokerAction → Prop where
  | incomplete (hs : b.receiving s = some session) (hr : Rpc.receive session.input = .closed) :
      RejectedTurn final b s (.receive s env)
  | badMagic (hs : b.receiving s = some session) (hr : Rpc.receive session.input = .badMagic) :
      RejectedTurn final b s (.receive s env)
  | tooLarge (hs : b.receiving s = some session)
      (hr : Rpc.receive session.input = .tooLarge opcode) :
      RejectedTurn final b s (.receive s env)
  | unknown (hs : b.receiving s = some session)
      (hr : Rpc.receive session.input = .request f rest) (hpush : f.opcode ≠ Opcode.push)
      (hpull : f.opcode ≠ Opcode.pull) (hdelete : f.opcode ≠ Opcode.delete) :
      RejectedTurn final b s (.receive s env)
  | error (ht : b.Turn s a) (hs : b.sessions[s]? = some session)
      (hr : final.response s session.output.length = some r) (he : r.errorCode ≠ .ok) :
      RejectedTurn final b s a
  | pull (ht : b.Turn s a) (hs : b.sessions[s]? = some session)
      (hop : session.handling = some Opcode.pull) : RejectedTurn final b s a
  | delete (hs : b.receiving s = some session)
      (hr : Rpc.receive session.input = .request f rest) (hop : f.opcode = Opcode.delete) :
      RejectedTurn final b s (.receive s env)
  | removedFalse (ht : b.Turn s a) (hs : b.sessions[s]? = some session)
      (hc : session.state = .calling opcode name i) (hf : final.callOf name i = some c)
      (hpc : c.pc = .finished (.removed false)) : RejectedTurn final b s a

variable {b b' final : Broker} {a : BrokerAction} {s k : Nat} {session : Session}

theorem stored_update {reg : Registry} (ht : reg.getTopic name = some t)
    (hu : u.stored = t.stored) (other : Text) :
    ((reg.update name u).getTopic other).map Topic.stored =
      (reg.getTopic other).map Topic.stored := by
  by_cases hne : other = name
  · rw [hne, Registry.getTopic_update_self ht, ht, Option.map_some, Option.map_some, hu]
  · rw [Registry.getTopic_update_ne hne]

theorem push_of_opcode {op : Operation} (h : opcodeOf op = Opcode.push) :
    ∃ r padding, op = .push r padding := by
  cases op with
  | push r padding => exact ⟨r, padding, rfl⟩
  | read | remove => cases h

structure Pushes (b : Broker) (s : Nat) (session : Session) (b' : Broker) : Prop where
  receiving : b.receiving s = some session
  request : ∃ f rest, Rpc.receive session.input = .request f rest ∧ f.opcode = Opcode.push
  calls : ∃ session' opcode name i c r padding, b'.sessions[s]? = some session' ∧
    session'.output = session.output ∧ session'.state = .calling opcode name i ∧
      b'.callOf name i = some c ∧ c.operation = .push r padding

theorem handling_of_request (hst : session.state = .receiving)
    (hr : Rpc.receive session.input = .request f rest) : session.handling = some f.opcode := by
  simp only [Session.handling, hst, hr]

theorem ServerStep.stored_cases (h : ServerStep b a b') (hne : b'.stored ≠ b.stored) :
    (∃ name i c, Moves a name i c ∧ b.callOf name i = some c ∧ (c.pc = .store ∨ c.pc = .mutate)) ∨
      ∃ s env session, a = .receive s env ∧ Pushes b s session b' := by
  have same {name : Text} {t u : Topic} (hb : b'.registry = b.registry.update name u)
      (ht : b.registry.getTopic name = some t) (hu : u.stored = t.stored) : False := by
    apply hne
    funext other
    rw [stored, hb]
    exact stored_update ht hu other
  cases h with
  | connect | closed | badMagic | tooLarge | answered | reply => exact (hne rfl).elim
  | @called s session f rest env reg name op t u hs hr hd ht hu =>
    obtain ⟨-, rfl⟩ := Topic.invoke_cases hu
    obtain ⟨-, ⟨rfl, -⟩ | ⟨-, -, hop, -⟩⟩ := handleRequest_call hd
    · exact (same rfl ht rfl).elim
    · obtain ⟨r, padding, rfl⟩ := push_of_opcode ((handleRequest_opcode hd).trans hop)
      have hsession := (receiving_eq_some.1 hs).1
      refine .inr ⟨s, env, session, rfl, hs, ⟨f, rest, hr, hop⟩, ?_⟩
      have hlt := (List.getElem?_eq_some_iff.1 hsession).1
      exact ⟨_, f.opcode, name, t.calls.length, _, r, padding, List.getElem?_set_self hlt, rfl,
        rfl, callOf_called ht .., rfl⟩
  | advance ht hu =>
    obtain ⟨c, pc, e, hc, hn, rfl⟩ := Topic.advance_cases hu
    have hpc := hn.ofStored fun he => same rfl ht he
    exact .inl ⟨_, _, c, .inl rfl, callOf_eq_some ht hc, hpc⟩
  | failStore ht hu =>
    obtain ⟨c, pc, e, hc, hst, hn, rfl⟩ := Topic.failStore_cases hu
    exact .inl ⟨_, _, c, .inr ⟨hst, _, rfl⟩, callOf_eq_some ht hc, .inl hst⟩

/-- Response `k` of the session is an OK, or its call is bound to be answered with one. -/
def Accepted (s k : Nat) (b : Broker) : Prop :=
  ∃ session, b.sessions[s]? = some session ∧
    ((∃ r, session.output[k]? = some r ∧ r.errorCode = .ok) ∨
      session.output.length = k ∧ ∃ opcode name i c, session.state = .calling opcode name i ∧
        b.callOf name i = some c ∧ c.Bound)

theorem replyTo_ok {a : Answer} (h : a.changes = true) (opcode : UInt8) :
    (replyTo opcode a).errorCode = .ok := by
  cases a with
  | pushed | removed => rfl
  | message => cases h

theorem SessionStep.output (h : SessionStep b b' (some session) o es answers) :
    ∃ x, o = some x ∧ ∃ rs, x.output = session.output ++ rs := by
  cases h with
  | same | closed | called => exact ⟨_, rfl, [], (List.append_nil _).symm⟩
  | badMagic | tooLarge | answered | reply => exact ⟨_, rfl, _, rfl⟩

theorem SessionStep.waiting (h : SessionStep b b' (some session) o es answers)
    (hst : session.state = .calling opcode name i) (hc : b.callOf name i = some c) :
    o = some session ∨ ∃ a, c.pc = .finished a ∧
      o = some { session.send (replyTo opcode a) with state := .receiving } := by
  cases h with
  | same => exact .inl rfl
  | closed h | badMagic h | tooLarge h | answered h | called h => cases h.symm.trans hst
  | reply h hc' hpc =>
    cases h.symm.trans hst
    cases hc.symm.trans hc'
    exact .inr ⟨_, hpc, rfl⟩

theorem sound_of_callOf (hco : b.registry.All Topic.Coherent) (hc : b.callOf name i = some c) :
    ∃ q, c.Sound q := by
  obtain ⟨t, ht, hc⟩ := Option.bind_eq_some_iff.1 hc
  exact ⟨_, (hco.getTopic ht).sound i c hc⟩

theorem ServerStep.bound_kept (h : ServerStep b a b') (hc : b.callOf name i = some c)
    (hb : c.Bound) : ∃ d, b'.callOf name i = some d ∧ d.Bound := by
  rcases h.callOf_kept hc with hc | ⟨t, pc, e, -, -, hd, hn, ht⟩
  · exact ⟨c, hc, hb⟩
  · exact ⟨_, callOf_advanced ht hd, hn.bound hb⟩

theorem Accepted.step (h : Accepted s k b) (hco : b.registry.All Topic.Coherent)
    (hs : b.step a = some b') : Accepted s k b' := by
  have hserver := step_server hs
  have hstep := hserver.forSession s
  obtain ⟨session, hsession, ⟨r, hr, hok⟩ | ⟨hk, opcode, name, i, c, hst, hc, hbound⟩⟩ := h
  · rw [hsession] at hstep
    obtain ⟨x, hx, rs, ho⟩ := hstep.output
    refine ⟨x, hx, .inl ⟨r, ?_, hok⟩⟩
    rw [ho, List.getElem?_append_left (List.getElem?_eq_some_iff.1 hr).1, hr]
  · rw [hsession] at hstep
    obtain hx | ⟨ans, hpc, hx⟩ := hstep.waiting hst hc
    · obtain ⟨d, hd, hbound'⟩ := hserver.bound_kept hc hbound
      exact ⟨session, hx, .inr ⟨hk, opcode, name, i, d, hst, hd, hbound'⟩⟩
    · obtain ⟨q, hsound⟩ := sound_of_callOf hco hc
      refine ⟨_, hx, .inl ⟨_, ?_, replyTo_ok (hbound.changes hsound hpc) opcode⟩⟩
      rw [← hk]
      exact List.getElem?_concat_length

theorem coherent_step (h : b.registry.All Topic.Coherent) (hs : b.step a = some b') :
    b'.registry.All Topic.Coherent :=
  topics_rule (Topic.coherent_init _) (fun _ _ _ h hs => h.step hs) b a b' h hs

theorem coherent_of_exec (hr : exec step {} acts = some b) : b.registry.All Topic.Coherent :=
  exec_invariant (I := fun b => b.registry.All Topic.Coherent) (fun _ _ _ h hs =>
    coherent_step h hs) Registry.all_nil hr

theorem accepted_exec (h : Accepted s k b) (hco : b.registry.All Topic.Coherent)
    (hr : exec step b acts = some final) : Accepted s k final := by
  have keep (b : Broker) (a : BrokerAction) (b' : Broker)
      (h : b.registry.All Topic.Coherent ∧ Accepted s k b) (hs : b.step a = some b') :
      b'.registry.All Topic.Coherent ∧ Accepted s k b' :=
    ⟨coherent_step h.1 hs, h.2.step h.1 hs⟩
  exact (exec_invariant keep ⟨hco, h⟩ hr).2

theorem bound_exec (hr : exec step b acts = some final) (hc : b.callOf name i = some c)
    (hb : c.Bound) : ∃ d, final.callOf name i = some d ∧ d.Bound := by
  apply exec_invariant (I := fun b => ∃ c, b.callOf name i = some c ∧ c.Bound) _ ⟨c, hc, hb⟩ hr
  rintro b a b' ⟨c, hc, hb⟩ hs
  exact (step_server hs).bound_kept hc hb

theorem Accepted.ok (h : Accepted s k b) (hr : b.response s k = some r) : r.errorCode = .ok := by
  obtain ⟨session, hs, h⟩ := h
  rw [response, hs, Option.bind_some] at hr
  obtain ⟨r', hr', hok⟩ | ⟨hk, -⟩ := h
  · cases hr.symm.trans hr'
    exact hok
  · cases hr.symm.trans (List.getElem?_eq_none hk.le)

theorem Turn.waiting (ht : b.Turn s a) (hm : Moves a name i c)
    (hs : b.sessions[s]? = some session) : ∃ opcode, session.state = .calling opcode name i := by
  obtain ⟨x, opcode, hx, hst⟩ : ∃ x opcode, b.sessions[s]? = some x ∧
      x.state = .calling opcode name i := by
    obtain rfl | ⟨-, kept, rfl⟩ := hm <;> exact ht
  cases hs.symm.trans hx
  exact ⟨opcode, hst⟩

theorem bound_of_next {c : Call} (hpc : c.pc = .store ∨ c.pc = .mutate) : c.Bound := by
  obtain hpc | hpc := hpc
  · exact .store hpc
  · exact .past (by rw [hpc]; rfl)

theorem not_read {c : Call} {q : List Message} (hs : c.Sound q) (hop : c.operation = .read p)
    (hpc : c.pc = .store ∨ c.pc = .mutate) : False := by
  rw [Call.Sound, hop] at hs
  obtain hpc | hpc := hpc
  · rw [hpc] at hs
    exact hs
  · rw [hpc] at hs
    exact hs

/-- A call that is about to change its topic belongs to no request that is rejected. -/
theorem RejectedTurn.not_moves (h : RejectedTurn final b s a) (hm : Moves a name i c)
    (hc : b.callOf name i = some c) (hpc : c.pc = .store ∨ c.pc = .mutate)
    (hb : exec step {} bs = some b) (hr : exec step b acts = some final) : False := by
  have hco := coherent_of_exec hb
  have hbound := bound_of_next hpc
  cases h with
  | incomplete | badMagic | tooLarge | unknown | delete =>
    obtain hm | ⟨-, kept, hm⟩ := hm <;> cases hm
  | error ht hs hresponse he =>
    obtain ⟨opcode, hst⟩ := ht.waiting hm hs
    have hacc : Accepted s _ b := ⟨_, hs, .inr ⟨rfl, opcode, name, i, c, hst, hc, hbound⟩⟩
    exact he ((accepted_exec hacc hco hr).ok hresponse)
  | pull ht hs hop =>
    obtain ⟨opcode, hst⟩ := ht.waiting hm hs
    rw [Session.handling, hst] at hop
    obtain ⟨d, hd, hread⟩ := (recalls_of_exec hb hs).call opcode name i hst
    cases hc.symm.trans hd
    obtain ⟨p, hp⟩ := hread (Option.some.inj hop)
    obtain ⟨q, hsound⟩ := sound_of_callOf hco hc
    exact not_read hsound hp hpc
  | removedFalse ht hs hst hf hfinished =>
    obtain ⟨opcode, hst'⟩ := ht.waiting hm hs
    cases hst.symm.trans hst'
    obtain ⟨d, hd, hbound'⟩ := bound_exec hr hc hbound
    cases hf.symm.trans hd
    have hrun : exec step {} (bs ++ acts) = some final := by
      rw [exec_append, hb, Option.bind_some, hr]
    obtain ⟨q, hsound⟩ := sound_of_callOf (coherent_of_exec hrun) hd
    cases hbound'.changes hsound hfinished

theorem Pushes.not_rejected (h : Pushes b s session b') (hco : b'.registry.All Topic.Coherent)
    (hr : exec step b' acts = some final) : ¬ RejectedTurn final b s' (.receive s env) := by
  obtain ⟨f, rest, hf, hop⟩ := h.request
  obtain ⟨hsession, hst⟩ := receiving_eq_some.1 h.receiving
  intro hj
  cases hj with
  | incomplete hx hr | badMagic hx hr | tooLarge hx hr =>
    cases h.receiving.symm.trans hx
    cases hf.symm.trans hr
  | unknown hx hr hne =>
    cases h.receiving.symm.trans hx
    cases hf.symm.trans hr
    exact hne hop
  | delete hx hr hdelete =>
    cases h.receiving.symm.trans hx
    cases hf.symm.trans hr
    cases hop.symm.trans hdelete
  | error ht hs hresponse he =>
    obtain rfl : s = s' := ht
    cases hsession.symm.trans hs
    obtain ⟨x, opcode, name, i, c, r, padding, hx, ho, hcalling, hc, hpush⟩ := h.calls
    have hacc : Accepted s session.output.length b' := ⟨x, hx, .inr ⟨congrArg List.length ho,
      opcode, name, i, c, hcalling, hc, .push hpush⟩⟩
    exact he ((accepted_exec hacc hco hr).ok hresponse)
  | pull ht hs hpull =>
    obtain rfl : s = s' := ht
    cases hsession.symm.trans hs
    rw [handling_of_request hst hf, hop] at hpull
    cases hpull
  | removedFalse ht hs hc =>
    obtain rfl : s = s' := ht
    cases hsession.symm.trans hs
    cases hst.symm.trans hc

theorem RejectedTurn.stored_eq (h : RejectedTurn final b s a) (hb : exec step {} bs = some b)
    (hs : b.step a = some b') (hr : exec step b' acts = some final) : b'.stored = b.stored := by
  by_contra hne
  obtain ⟨name, i, c, hm, hc, hpc⟩ | ⟨s', env, session, rfl, hp⟩ :=
    (step_server hs).stored_cases hne
  · exact h.not_moves hm hc hpc hb (exec_cons_some.2 ⟨b', hs, hr⟩)
  · exact hp.not_rejected (coherent_step (coherent_of_exec hb) hs) hr h

/-- Turns on requests that are rejected, or that only read, leave the topics, their partitions
and their wall files as they are. -/
theorem rejected_changes_nothing (hb : exec step {} bs = some b) (hb' : exec step b cs = some b')
    (hr : exec step b' ds = some final)
    (h : AllSteps step (fun x a => ∃ s, RejectedTurn final x s a) b cs) :
    b'.stored = b.stored := by
  induction cs generalizing b bs with
  | nil =>
    cases hb'
    rfl
  | cons a cs ih =>
    obtain ⟨x, hx, hcs⟩ := exec_cons_some.1 hb'
    obtain ⟨⟨s, hj⟩, hrest⟩ := h
    have hend : exec step x (cs ++ ds) = some final := by
      rw [exec_append, hcs, Option.bind_some, hr]
    have hbx : exec step {} (bs ++ [a]) = some x := by rw [exec_concat, hb, Option.bind_some, hx]
    rw [ih hbx hcs (hrest x hx), hj.stored_eq hb hx hend]

theorem rejectedTurn_of_calling (hs : b.sessions[s]?.map Session.state =
      some (.calling opcode name i)) (ha : a = .advance name i ∨ a = .reply s)
    (hf : final.callOf name i = some c) (hpc : c.pc = .finished (.removed false)) :
    RejectedTurn final b s a := by
  obtain ⟨session, hsession, hst⟩ := Option.map_eq_some_iff.1 hs
  refine .removedFalse ?_ hsession hst hf hpc
  rcases ha with rfl | rfl
  · exact ⟨session, opcode, hsession, hst⟩
  · rfl

/-- A PUSH of "b", after which its connection has a DELETE of "c" to be read. -/
def heldMessage : List BrokerAction :=
  .connect (Audited.pushFrame ++
    [0x55, 0x43, 0x4F, 0x4E, 3, 0, 1, 0, 0, 0, 1, 0, 97, 99]) ::
    .receive 0 ⟨true, 0, fun _ => 0, .replicate 5 0⟩ :: List.replicate 6 (.advance [97] 0) ++
    [.reply 0]

def refusedDelete : List BrokerAction := List.replicate 3 (.advance [97] 1) ++ [.reply 0]

theorem exec_heldMessage : (exec step {} heldMessage).isSome = true := by decide +kernel

theorem rejected_changes_nothing_refused :
    ∃ b b', exec step {} heldMessage = some b ∧
      exec step b (.receive 0 ⟨true, 0, fun _ => 0, .replicate 5 0⟩ :: refusedDelete) = some b' ∧
        (b.registry.getTopic [97]).map Topic.storage = some [[⟨0, [98]⟩]] ∧
          b.sessions.map (fun session => session.output.length) = [1] ∧
            b'.sessions.map (fun session => session.output.length) = [2] ∧
              b'.stored = b.stored := by
  let env : HandlerEnv := ⟨true, 0, fun _ => 0, .replicate 5 0⟩
  let b := (exec step {} heldMessage).get exec_heldMessage
  have hb : exec step {} heldMessage = some b := (Option.some_get exec_heldMessage).symm
  have hlast : (exec step b (.receive 0 env :: refusedDelete)).map (fun b' =>
      (b'.sessions.map (fun session => session.output.length), (b'.callOf [97] 1).map Call.pc)) =
        some ([2], some (.finished (.removed false))) := by decide +kernel
  obtain ⟨b', hb', hlast⟩ := Option.map_eq_some_iff.1 hlast
  obtain ⟨hlen, hcall⟩ := Prod.mk.inj hlast
  obtain ⟨c, hc, hpc⟩ := Option.map_eq_some_iff.1 hcall
  have hfirst : ((b.receiving 0).bind fun session =>
      match Rpc.receive session.input with
      | .request f _ => some f.opcode
      | _ => none) = some Opcode.delete := by decide +kernel
  have hrest : ∀ x, b.step (.receive 0 env) = some x → AllSteps step (fun x _ =>
      x.sessions[0]?.map Session.state = some (.calling Opcode.delete [97] 1)) x
        refusedDelete := by decide +kernel
  have hturns : ∀ a ∈ refusedDelete, a = .advance [97] 1 ∨ a = .reply 0 := by
    simp [refusedDelete]
  have hend : exec step b' [] = some b' := rfl
  refine ⟨b, b', hb, hb', by decide +kernel, by decide +kernel, hlen,
    rejected_changes_nothing hb hb' hend ⟨⟨0, ?_⟩, fun x hx => ?_⟩⟩
  · obtain ⟨session, hs, hop⟩ := Option.bind_eq_some_iff.1 hfirst
    split at hop
    · rename_i hr
      exact .delete hs hr (Option.some.inj hop)
    · cases hop
  · exact ((hrest x hx).and_mem hturns).imp (I := fun _ => True) (fun _ _ _ _ _ _ => trivial)
      (fun _ _ _ h => ⟨0, rejectedTurn_of_calling h.1 h.2 hc hpc⟩) trivial

end Broker
end Rpc
end Noctua
