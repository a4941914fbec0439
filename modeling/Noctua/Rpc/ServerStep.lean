import Noctua.Rpc.Broker
import Noctua.Topic.Locks

namespace Noctua.Rpc
open Transition
set_option autoImplicit true

/-- How a request comes to call its topic. -/
inductive Calls (reg : Registry) (env : HandlerEnv) (f : Frame) : Registry → Operation → Prop where
  | push (hop : f.opcode = Opcode.push)
      (hr : reg.getOrCreateTopic env.opens f.topicName = some reg') (r : Request) :
      Calls reg env f reg' (.push r env.padding)
  | pull (hop : f.opcode = Opcode.pull) (ht : reg.getTopic f.topicName = some t) :
      Calls reg env f reg (.read f.partitionId)
  | delete (hop : f.opcode = Opcode.delete) (ht : reg.getTopic f.topicName = some t)
      (r : Request) : Calls reg env f reg (.remove r env.padding)

/-- The opcode of the requests that make this call. -/
def opcodeOf : Operation → UInt8
  | .push _ _ => Opcode.push
  | .read _ => Opcode.pull
  | .remove _ _ => Opcode.delete

section
variable {reg reg' : Registry} {env : HandlerEnv} {f : Frame}

theorem callWithRequest_eq_call {o : Request → Padding → Operation}
    (h : callWithRequest env f o = .call name op) : name = f.topicName ∧
      op = o (requestAt (handlerMemory env.cell env.buffer f) env.buffer) env.padding := by
  simp only [callWithRequest] at h
  split at h
  · cases h
    exact ⟨rfl, rfl⟩
  · cases h

/-- The response of a handler that ends without a call. -/
structure IsError (f : Frame) (r : Response) : Prop where
  opcode : r.opcode = f.opcode
  errorCode : r.errorCode ≠ .ok
  short : r.data.length < 2 ^ 16

theorem handlePush_respond (h : handlePush reg env f = (reg', .respond r))
    (hop : f.opcode = Opcode.push) : reg' = reg ∧ IsError f r := by
  rw [handlePush] at h
  split at h
  · cases h
    exact ⟨rfl, hop.symm, by decide, by decide +kernel⟩
  · split at h
    · cases h
    · simp only [Prod.mk.injEq, callWithRequest] at h
      obtain ⟨-, h⟩ := h
      split at h <;> cases h

theorem handlePull_respond (h : handlePull reg f = .respond r) (hop : f.opcode = Opcode.pull) :
    IsError f r := by
  rw [handlePull] at h
  repeat' split at h
  all_goals cases h
  all_goals exact ⟨hop.symm, by decide, by decide +kernel⟩

theorem handleDelete_respond (h : handleDelete reg env f = .respond r)
    (hop : f.opcode = Opcode.delete) : IsError f r := by
  rw [handleDelete] at h
  repeat' split at h
  case h_2.isFalse =>
    rw [callWithRequest] at h
    split at h <;> cases h
  all_goals cases h
  all_goals exact ⟨hop.symm, by decide, by decide +kernel⟩

theorem handleRequest_respond (h : handleRequest reg env f = (reg', .respond r)) :
    reg' = reg ∧ IsError f r := by
  rw [handleRequest] at h
  split at h
  · exact handlePush_respond h ‹_›
  · split at h
    · exact ⟨(congrArg Prod.fst h).symm, handlePull_respond (congrArg Prod.snd h) ‹_›⟩
    · split at h
      · exact ⟨(congrArg Prod.fst h).symm, handleDelete_respond (congrArg Prod.snd h) ‹_›⟩
      · cases h
        have hs : ("Unknown opcode".toUTF8.toList).length < 2 ^ 16 := by decide +kernel
        exact ⟨rfl, rfl, ErrorCode.noConfusion, hs⟩

theorem handlePush_calls (h : handlePush reg env f = (reg', .call name op))
    (hop : f.opcode = Opcode.push) : name = f.topicName ∧ Calls reg env f reg' op := by
  rw [handlePush] at h
  split at h
  · cases h
  · split at h
    · cases h
    · rename_i hr
      obtain ⟨rfl, hd⟩ := Prod.mk.inj h
      obtain ⟨rfl, rfl⟩ := callWithRequest_eq_call hd
      exact ⟨rfl, .push hop hr _⟩

theorem handlePull_calls (h : handlePull reg f = .call name op) (hop : f.opcode = Opcode.pull) :
    name = f.topicName ∧ Calls reg env f reg op := by
  rw [handlePull] at h
  split at h
  · cases h
  · split at h
    · cases h
    · rename_i t ht
      split at h
      · cases h
      · split at h
        · cases h
        · cases h
          exact ⟨rfl, .pull hop ht⟩

theorem handleDelete_calls (h : handleDelete reg env f = .call name op)
    (hop : f.opcode = Opcode.delete) : name = f.topicName ∧ Calls reg env f reg op := by
  rw [handleDelete] at h
  split at h
  · cases h
  · split at h
    · cases h
    · rename_i t ht
      split at h
      · cases h
      · obtain ⟨rfl, rfl⟩ := callWithRequest_eq_call h
        exact ⟨rfl, .delete hop ht _⟩

theorem handleRequest_calls (h : handleRequest reg env f = (reg', .call name op)) :
    name = f.topicName ∧ Calls reg env f reg' op := by
  rw [handleRequest] at h
  split at h
  · exact handlePush_calls h ‹_›
  · split at h
    · obtain ⟨rfl, hd⟩ := Prod.mk.inj h
      exact handlePull_calls hd ‹_›
    · split at h
      · obtain ⟨rfl, hd⟩ := Prod.mk.inj h
        exact handleDelete_calls hd ‹_›
      · cases h

/-- A topic is called by a PUSH, which may create it, or by a PULL or DELETE that finds it. -/
theorem handleRequest_call (h : handleRequest reg env f = (reg', .call name op)) :
    name = f.topicName ∧ (reg' = reg ∧ (∃ t, reg.getTopic name = some t) ∨
      reg.getTopic name = none ∧ env.opens = true ∧ f.opcode = Opcode.push ∧
        reg' = reg ++ [(name, Topic.init Registry.partitionsCount)]) := by
  obtain ⟨rfl, hc⟩ := handleRequest_calls h
  refine ⟨rfl, ?_⟩
  cases hc with
  | push hop hr r =>
    rcases Registry.getOrCreateTopic_cases hr with ⟨rfl, hne⟩ | ⟨rfl, hnone, ho⟩
    · exact .inl ⟨rfl, Option.ne_none_iff_exists'.1 hne⟩
    · exact .inr ⟨hnone, ho, hop, rfl⟩
  | pull hop ht | delete hop ht => exact .inl ⟨rfl, _, ht⟩

theorem handleRequest_opcode (h : handleRequest reg env f = (reg', .call name op)) :
    opcodeOf op = f.opcode := by
  obtain ⟨-, hc⟩ := handleRequest_calls h
  cases hc with
  | push hop | pull hop | delete hop => exact hop.symm

theorem handleRequest_call_pull (h : handleRequest reg env f = (reg', .call name op))
    (hop : f.opcode = Opcode.pull) : op = .read f.partitionId := by
  obtain ⟨-, hc⟩ := handleRequest_calls h
  cases hc with
  | pull => rfl
  | push hother | delete hother => cases hother.symm.trans hop

end

namespace Broker

def advanced (b : Broker) (name : Text) (u : Topic) : Broker :=
  { b with registry := b.registry.update name u }

def called (b : Broker) (reg : Registry) (s : Nat) (session : Session) (opcode : UInt8)
    (name : Text) (call : Nat) (u : Topic) : Broker :=
  { b with registry := reg.update name u }.setSession s
    { session with state := .calling opcode name call }

/-- Everything that a step of the server can be. -/
inductive ServerStep (b : Broker) : BrokerAction → Broker → Prop where
  | connect (input : List UInt8) :
      ServerStep b (.connect input) { b with sessions := b.sessions ++ [{ input := input }] }
  | closed (hs : b.receiving s = some session) (hr : Rpc.receive session.input = .closed) :
      ServerStep b (.receive s env) (b.setSession s session.close)
  | badMagic (hs : b.receiving s = some session) (hr : Rpc.receive session.input = .badMagic) :
      ServerStep b (.receive s env) (b.setSession s (session.send
        (errorResponse Opcode.push .internalError "Invalid magic number")).close)
  | tooLarge (hs : b.receiving s = some session)
      (hr : Rpc.receive session.input = .tooLarge opcode) :
      ServerStep b (.receive s env) (b.setSession s (session.send
        (errorResponse opcode .internalError "Data too large")).close)
  | answered (hs : b.receiving s = some session)
      (hr : Rpc.receive session.input = .request f rest)
      (hd : handleRequest b.registry env f = (b.registry, .respond r)) :
      ServerStep b (.receive s env)
        (b.setSession s (({ session with input := rest } : Session).send r))
  | called (hs : b.receiving s = some session)
      (hr : Rpc.receive session.input = .request f rest)
      (hd : handleRequest b.registry env f = (reg, .call name op))
      (ht : reg.getTopic name = some t) (hu : t.step requestHash (.invoke s op) = some u) :
      ServerStep b (.receive s env)
        (b.called reg s { session with input := rest } f.opcode name t.calls.length u)
  | advance (ht : b.registry.getTopic name = some t)
      (hu : t.step requestHash (.advance call) = some u) :
      ServerStep b (.advance name call) (b.advanced name u)
  | failStore (ht : b.registry.getTopic name = some t)
      (hu : t.step requestHash (.failStore call kept) = some u) :
      ServerStep b (.failStore name call kept) (b.advanced name u)
  | reply (hs : b.sessions[s]? = some session) (hc : session.state = .calling opcode name call)
      (ht : b.registry.getTopic name = some t) (hcall : t.calls[call]? = some c)
      (hpc : c.pc = .finished a) :
      ServerStep b (.reply s) (b.setSession s
        { session.send (replyTo opcode a) with state := .receiving })

variable {b b' : Broker}

theorem receiving_eq_some : b.receiving s = some session ↔
    b.sessions[s]? = some session ∧ session.state = .receiving := by
  rw [receiving, Option.filter_eq_some_iff, decide_eq_true_iff]

theorem serverStep_receive (h : b.step (.receive s env) = some b') :
    ServerStep b (.receive s env) b' := by
  obtain ⟨session, hs, h⟩ := Option.bind_eq_some_iff.1 h
  split at h
  · rename_i hr
    cases h
    exact .closed hs hr
  · rename_i hr
    cases h
    exact .badMagic hs hr
  · rename_i hr
    cases h
    exact .tooLarge hs hr
  · rename_i f rest hr
    cases hd : handleRequest b.registry env f with
    | mk reg d =>
      rw [handle, hd] at h
      cases d with
      | respond r =>
        obtain ⟨rfl, -⟩ := handleRequest_respond hd
        cases h
        exact .answered hs hr hd
      | call name op =>
        obtain ⟨t, ht, h⟩ := Option.bind_eq_some_iff.1 h
        obtain ⟨u, hu, rfl⟩ := Option.map_eq_some_iff.1 h
        exact .called hs hr hd ht hu
      | overflow => cases h
      | abort => cases h

theorem serverStep_reply (h : b.step (.reply s) = some b') : ServerStep b (.reply s) b' := by
  obtain ⟨session, hs, h⟩ := Option.bind_eq_some_iff.1 h
  split at h
  · rename_i hc
    obtain ⟨c, hcall, h⟩ := Option.bind_eq_some_iff.1 h
    obtain ⟨t, ht, hcall⟩ := Option.bind_eq_some_iff.1 hcall
    split at h
    · rename_i hpc
      cases h
      exact .reply hs hc ht hcall hpc
    · cases h
  · cases h

theorem step_server (h : b.step a = some b') : ServerStep b a b' := by
  cases a with
  | connect input =>
    cases h
    exact .connect input
  | receive s env => exact serverStep_receive h
  | advance name call =>
    obtain ⟨t, ht, h⟩ := Option.bind_eq_some_iff.1 h
    obtain ⟨u, hu, rfl⟩ := Option.map_eq_some_iff.1 h
    exact .advance ht hu
  | failStore name call kept =>
    obtain ⟨t, ht, h⟩ := Option.bind_eq_some_iff.1 h
    obtain ⟨u, hu, rfl⟩ := Option.map_eq_some_iff.1 h
    exact .failStore ht hu
  | reply s => exact serverStep_reply h

def callOf (b : Broker) (name : Text) (i : Nat) : Option Call :=
  (b.registry.getTopic name).bind fun t => t.calls[i]?

def queue (b : Broker) (name : Text) (p : UInt16) : List Message :=
  match b.registry.getTopic name with
  | some t => t.queue p
  | none => []

/-- The action is a step of call `i` of topic `name`. -/
def Moves (a : BrokerAction) (name : Text) (i : Nat) (c : Call) : Prop :=
  a = .advance name i ∨ c.pc = .store ∧ ∃ kept, a = .failStore name i kept

/-- What becomes of a topic in one step. -/
inductive TopicStep (a : BrokerAction) (name : Text) : Option Topic → Option Topic → Prop where
  | same : TopicStep a name o o
  | invoked (op : Operation) (p : UInt16) (hp : p.toNat < t.storage.length) :
      TopicStep a name (some t) (some (t.invoked s op p))
  | created (op : Operation) (p : UInt16) (hp : p.toNat < Registry.partitionsCount) :
      TopicStep a name none (some ((Topic.init Registry.partitionsCount).invoked s op p))
  | moved (ha : Moves a name i c) (hc : t.calls[i]? = some c) (hn : Topic.Next t i c pc e) :
      TopicStep a name (some t) (some (t.advanced i c pc e))

theorem ServerStep.topic (h : ServerStep b a b') (name : Text) :
    TopicStep a name (b.registry.getTopic name) (b'.registry.getTopic name) := by
  have other {reg : Registry} {n : Text} {u : Topic} (hne : name ≠ n)
      (hr : reg.getTopic name = b.registry.getTopic name) :
      TopicStep a name (b.registry.getTopic name) ((reg.update n u).getTopic name) := by
    rw [Registry.getTopic_update_ne hne, hr]
    exact .same
  cases h with
  | connect | closed | badMagic | tooLarge | answered | reply => exact .same
  | @called _ _ _ _ _ reg n op t u hs hr hd ht hu =>
    change TopicStep _ _ _ ((reg.update n u).getTopic name)
    obtain ⟨hp, rfl⟩ := Topic.invoke_cases hu
    obtain ⟨-, ⟨rfl, -⟩ | ⟨hnone, -, -, rfl⟩⟩ := handleRequest_call hd
    · by_cases hne : name = n
      · subst hne
        rw [Registry.getTopic_update_self ht, ht]
        exact .invoked op _ hp
      · exact other hne rfl
    · by_cases hne : name = n
      · subst hne
        rw [Registry.getTopic_update_self ht, hnone]
        rw [Registry.getTopic_append_self hnone] at ht
        cases ht
        exact .created op _ hp
      · exact other hne (Registry.getTopic_append_ne hne)
  | @advance n t call u ht hu =>
    change TopicStep _ _ _ ((b.registry.update n u).getTopic name)
    obtain ⟨c, pc, e, hc, hn, rfl⟩ := Topic.advance_cases hu
    by_cases hne : name = n
    · subst hne
      rw [Registry.getTopic_update_self ht, ht]
      exact .moved (.inl rfl) hc hn
    · exact other hne rfl
  | @failStore n t call kept u ht hu =>
    change TopicStep _ _ _ ((b.registry.update n u).getTopic name)
    obtain ⟨c, pc, e, hc, hpc, hn, rfl⟩ := Topic.failStore_cases hu
    by_cases hne : name = n
    · subst hne
      rw [Registry.getTopic_update_self ht, ht]
      exact .moved (.inr ⟨hpc, kept, rfl⟩) hc hn
    · exact other hne rfl

theorem callOf_eq_some (ht : b.registry.getTopic name = some t) (hc : t.calls[i]? = some c) :
    b.callOf name i = some c := Option.bind_eq_some_iff.2 ⟨t, ht, hc⟩

theorem callOf_called {reg : Registry} {t : Topic} (ht : reg.getTopic name = some t)
    (s client : Nat) (session : Session) (opcode : UInt8) (op : Operation) (p : UInt16) :
    (b.called reg s session opcode name t.calls.length (t.invoked client op p)).callOf name
      t.calls.length = some ⟨client, op, p, op.start⟩ :=
  callOf_eq_some (Registry.getTopic_update_self ht _) (Topic.calls_invoked.2 (.inr ⟨rfl, rfl⟩))

theorem callOf_advanced {t : Topic} (ht : b.registry.getTopic name = some (t.advanced i c pc e))
    (hc : t.calls[i]? = some c) : b.callOf name i = some { c with pc := pc } :=
  callOf_eq_some ht (Topic.calls_advanced_self hc)

theorem ServerStep.callOf_cases (h : ServerStep b a b') (hc : b'.callOf name i = some c) :
    b.callOf name i = some c ∨ b.callOf name i = none ∧ c.pc = c.operation.start ∨
      ∃ t d pc e, Moves a name i d ∧ b.registry.getTopic name = some t ∧ t.calls[i]? = some d ∧
        Topic.Next t i d pc e ∧ c = { d with pc := pc } := by
  have ht := h.topic name
  rw [callOf] at hc ⊢
  generalize b.registry.getTopic name = o, b'.registry.getTopic name = o' at ht hc ⊢
  cases ht with
  | same => exact .inl hc
  | @invoked s t op p hp =>
    rcases Topic.calls_invoked.1 hc with hc | ⟨rfl, rfl⟩
    · exact .inl hc
    · exact .inr (.inl ⟨List.getElem?_eq_none (Nat.le_refl _), rfl⟩)
  | created op p hp =>
    rcases Topic.calls_invoked.1 hc with hc | ⟨rfl, rfl⟩
    · cases hc
    · exact .inr (.inl ⟨rfl, rfl⟩)
  | moved ha hd hn =>
    rcases (Topic.calls_advanced hd).1 hc with ⟨rfl, rfl⟩ | ⟨-, hc⟩
    · exact .inr (.inr ⟨_, _, _, _, ha, rfl, hd, hn, rfl⟩)
    · exact .inl hc

theorem ServerStep.callOf_kept (h : ServerStep b a b') (hc : b.callOf name i = some c) :
    b'.callOf name i = some c ∨ ∃ t pc e, Moves a name i c ∧
      b.registry.getTopic name = some t ∧ t.calls[i]? = some c ∧ Topic.Next t i c pc e ∧
        b'.registry.getTopic name = some (t.advanced i c pc e) := by
  have ht := h.topic name
  rw [callOf] at hc ⊢
  generalize b.registry.getTopic name = o, b'.registry.getTopic name = o' at ht hc ⊢
  cases ht with
  | same => exact .inl hc
  | invoked op p hp => exact .inl (Topic.calls_invoked.2 (.inl hc))
  | created op p hp => cases hc
  | @moved j t d pc e ha hd hn =>
    by_cases hj : i = j
    · subst hj
      obtain rfl := Option.some.inj (hd.symm.trans hc)
      exact .inr ⟨_, _, _, ha, rfl, hd, hn, rfl⟩
    · exact .inl (Topic.calls_advanced_ne hd hj hc)

theorem ServerStep.queue_cases (h : ServerStep b a b') (hq : b'.queue name p ≠ b.queue name p) :
    ∃ i t c pc e, Moves a name i c ∧ b.registry.getTopic name = some t ∧ t.calls[i]? = some c ∧
      Topic.Next t i c pc e ∧ b'.registry.getTopic name = some (t.advanced i c pc e) := by
  have ht := h.topic name
  rw [queue, queue] at hq
  generalize b.registry.getTopic name = o, b'.registry.getTopic name = o' at ht hq ⊢
  cases ht with
  | same => exact (hq rfl).elim
  | invoked op p hp => exact (hq rfl).elim
  | created op p hp => exact (hq (Topic.init_queue _ _)).elim
  | moved ha hd hn => exact ⟨_, _, _, _, _, ha, rfl, hd, hn, rfl⟩

theorem step_moves (hm : Moves a name i c) (h : b.step a = some b')
    (ht : b.registry.getTopic name = some t) (hc : t.calls[i]? = some c) :
    ∃ pc e, Topic.Next t i c pc e ∧
      b'.registry.getTopic name = some (t.advanced i c pc e) := by
  rcases hm with rfl | ⟨hpc, kept, rfl⟩
  · cases step_server h with
    | advance ht' hu =>
      obtain rfl := Option.some.inj (ht.symm.trans ht')
      obtain ⟨d, pc, e, hd, hn, rfl⟩ := Topic.advance_cases hu
      obtain rfl := Option.some.inj (hc.symm.trans hd)
      exact ⟨pc, e, hn, Registry.getTopic_update_self ht _⟩
  · cases step_server h with
    | failStore ht' hu =>
      obtain rfl := Option.some.inj (ht.symm.trans ht')
      obtain ⟨d, pc, e, hd, -, hn, rfl⟩ := Topic.failStore_cases hu
      obtain rfl := Option.some.inj (hc.symm.trans hd)
      exact ⟨pc, e, hn, Registry.getTopic_update_self ht _⟩

end Broker
end Noctua.Rpc
