import Noctua.Rpc.Rejected

namespace Noctua
open Transition
set_option autoImplicit true

/-- The answer of a call, once it is decided. -/
def Pc.answer : Pc → Option Answer
  | .releaseRead a => a
  | .releaseWrite a | .finished a => some a
  | _ => none

theorem Operation.start_answer (op : Operation) : op.start.answer = none := by cases op <;> rfl

namespace Topic
variable {t : Topic} {c : Call} {e : Effect}

theorem Next.answer_kept (hn : Next t i c pc e) (h : c.pc.answer = some a) :
    pc.answer = some a := by
  cases hn with
  | answerRead hpc | answerWrite hpc =>
    rw [hpc] at h
    exact h
  | acquireRead hpc | readFront hpc | rejectFirst hpc | passFirst hpc | releaseRead hpc
  | acquireRemove hpc | acquirePush hpc | rejectSecond hpc | passSecond hpc | acquireWall hpc
  | store hpc | failStore hpc | releaseWall hpc | push hpc | pop hpc =>
    rw [hpc] at h
    cases h

theorem Next.removed (hn : Next t i c pc e) (h : pc.answer = some (.removed taken)) :
    c.pc.answer = some (.removed taken) ∨ ∃ r padding, c.operation = .remove r padding ∧
      (taken = true ∧ c.pc = .mutate ∨
        taken = false ∧ (c.pc = .inspect ∨ c.pc = .recheck) ∧
          headText (t.queue c.partition) ≠ some r.message.text) := by
  cases hn with
  | answerRead hpc | answerWrite hpc =>
    rw [hpc]
    exact .inl h
  | rejectFirst hpc hop hq hne =>
    cases h
    exact .inr ⟨_, _, hop, .inr ⟨rfl, .inl hpc, headText_ne hq hne⟩⟩
  | rejectSecond hpc hop hq hne =>
    cases h
    exact .inr ⟨_, _, hop, .inr ⟨rfl, .inr hpc, headText_ne hq hne⟩⟩
  | pop hpc hop =>
    cases h
    exact .inr ⟨_, _, hop, .inl ⟨rfl, hpc⟩⟩
  | _ => cases h

theorem Next.takes (hn : Next t i c pc e) (hpc : c.pc = .mutate)
    (hop : c.operation = .remove r padding) : pc = .releaseWrite (.removed true) ∧ e = .pop := by
  cases hn with
  | pop => exact ⟨rfl, rfl⟩
  | push _ h => cases hop.symm.trans h
  | acquireRead h | readFront h | rejectFirst h | passFirst h | answerRead h | releaseRead h
  | acquireRemove h | acquirePush h | rejectSecond h | passSecond h | acquireWall h | store h
  | failStore h | releaseWall h | answerWrite h => cases h.symm.trans hpc

theorem Next.refuses (hn : Next t i c pc e) (hpc : c.pc = .inspect ∨ c.pc = .recheck)
    (hop : c.operation = .remove r padding)
    (hne : headText (t.queue c.partition) ≠ some r.message.text) :
    pc.answer = some (.removed false) := by
  cases hn with
  | rejectFirst | rejectSecond => rfl
  | readFront _ h => cases hop.symm.trans h
  | passFirst _ h hq he | passSecond _ h hq he =>
    cases hop.symm.trans h
    exact (hne (he ▸ headText_of_head hq)).elim
  | acquireRead h | answerRead h | releaseRead h | acquireRemove h | acquirePush h | acquireWall h
  | store h | failStore h | releaseWall h | push h | pop h | answerWrite h =>
    rcases hpc with hpc | hpc <;> cases h.symm.trans hpc

theorem Next.shorter (hn : Next t i c pc e)
    (h : (e.onQueue (t.queue c.partition)).length < (t.queue c.partition).length) :
    c.pc = .mutate ∧ ∃ r padding, c.operation = .remove r padding := by
  cases hn with
  | pop hpc hop => exact ⟨hpc, _, _, hop⟩
  | push =>
    rw [Effect.onQueue, List.length_append] at h
    exact (Nat.not_lt.2 (Nat.le_add_right _ _) h).elim
  | _ => exact (Nat.lt_irrefl _ h).elim

end Topic

namespace Rpc

namespace Broker

/-- A session waits for a call of its request, and every call that has not returned is waited
for. -/
structure Attended (b : Broker) : Prop where
  serves : ∀ (s : Nat) (session : Session) opcode name i, b.sessions[s]? = some session →
    session.state = .calling opcode name i →
      ∃ c, b.callOf name i = some c ∧ opcodeOf c.operation = opcode
  waits : ∀ name i c, b.callOf name i = some c → c.pc.isFinished = false →
    ∃ (s : Nat) (session : Session), b.sessions[s]? = some session ∧
      session.state = .calling (opcodeOf c.operation) name i

variable {b b' : Broker} {a : BrokerAction} {s : Nat} {x session : Session}

theorem of_set {xs : List Session} (h : (xs.set j session)[s]? = some x) :
    x = session ∨ xs[s]? = some x := by
  rw [List.getElem?_set] at h
  split at h
  · split at h
    · exact .inl (Option.some.inj h).symm
    · cases h
  · exact .inr h

theorem ServerStep.calling (h : ServerStep b a b') (hs : b'.sessions[s]? = some x)
    (hst : x.state = .calling opcode name i) : b.sessions[s]? = some x ∨
      ∃ c, b'.callOf name i = some c ∧ opcodeOf c.operation = opcode := by
  cases h with
  | connect input =>
    change (b.sessions ++ [_])[s]? = some x at hs
    by_cases hlt : s < b.sessions.length
    · rw [List.getElem?_append_left hlt] at hs
      exact .inl hs
    · rw [List.getElem?_append_right (Nat.not_lt.1 hlt)] at hs
      rw [List.mem_singleton.1 (List.mem_of_getElem? hs)] at hst
      cases hst
  | closed | badMagic | tooLarge | reply =>
    obtain rfl | hs := of_set hs
    · cases hst
    · exact .inl hs
  | answered hr =>
    obtain rfl | hs := of_set hs
    · cases (receiving_eq_some.1 hr).2.symm.trans hst
    · exact .inl hs
  | called hr hreq hd ht hu =>
    obtain ⟨-, rfl⟩ := Topic.invoke_cases hu
    obtain rfl | hs := of_set hs
    · cases hst
      exact .inr ⟨_, callOf_called ht .., handleRequest_opcode hd⟩
    · exact .inl hs
  | advance | failStore => exact .inl hs

theorem calls_before {reg reg' : Registry} {env : HandlerEnv} {f : Frame} {t : Topic} {i : Nat}
    (h : handleRequest reg env f = (reg', .call n op)) (ht : reg'.getTopic name = some t)
    (hc : t.calls[i]? = some c) : reg.getTopic name = some t := by
  obtain ⟨-, ⟨rfl, -⟩ | ⟨hnone, -, -, rfl⟩⟩ := handleRequest_call h
  · exact ht
  · by_cases hne : name = n
    · rw [hne, Registry.getTopic_append_self hnone] at ht
      cases ht
      cases hc
    · rwa [Registry.getTopic_append_ne hne] at ht

theorem serving_advanced {t : Topic} {d : Call} (ht : b.registry.getTopic n = some t)
    (hd : t.calls[j]? = some d) (hn : Topic.Next t j d pc e)
    (hc : (b.advanced n (t.advanced j d pc e)).callOf name i = some c) :
    ∃ d, b.callOf name i = some d ∧ d.operation = c.operation ∧
      (c.pc.isFinished = false → d.pc.isFinished = false) := by
  obtain ⟨u, hu, hc⟩ := Option.bind_eq_some_iff.1 hc
  change (b.registry.update n _).getTopic name = some u at hu
  by_cases hne : name = n
  · subst hne
    rw [Registry.getTopic_update_self ht] at hu
    cases hu
    obtain ⟨rfl, rfl⟩ | ⟨-, hc⟩ := (Topic.calls_advanced hd).1 hc
    · exact ⟨d, callOf_eq_some ht hd, rfl, fun _ => hn.not_finished⟩
    · exact ⟨c, callOf_eq_some ht hc, rfl, fun h => h⟩
  · rw [Registry.getTopic_update_ne hne] at hu
    exact ⟨c, callOf_eq_some hu hc, rfl, fun h => h⟩

theorem ServerStep.serving (h : ServerStep b a b') (hc : b'.callOf name i = some c) :
    (∃ d, b.callOf name i = some d ∧ d.operation = c.operation ∧
      (c.pc.isFinished = false → d.pc.isFinished = false)) ∨
      ∃ (s : Nat) (x : Session), b'.sessions[s]? = some x ∧
        x.state = .calling (opcodeOf c.operation) name i := by
  cases h with
  | connect | closed | badMagic | tooLarge | answered | reply => exact .inl ⟨c, hc, rfl, fun h => h⟩
  | @called s session f rest env reg n op t u hr hreq hd ht hu =>
    obtain ⟨-, rfl⟩ := Topic.invoke_cases hu
    obtain ⟨u, hu, hc⟩ := Option.bind_eq_some_iff.1 hc
    change (reg.update n _).getTopic name = some u at hu
    by_cases hne : name = n
    · subst hne
      rw [Registry.getTopic_update_self ht] at hu
      cases hu
      obtain hc | ⟨rfl, rfl⟩ := Topic.calls_invoked.1 hc
      · exact .inl ⟨c, callOf_eq_some (calls_before hd ht hc) hc, rfl, fun h => h⟩
      · have hlt := (List.getElem?_eq_some_iff.1 (receiving_eq_some.1 hr).1).1
        exact .inr ⟨s, _, List.getElem?_set_self hlt, by rw [handleRequest_opcode hd]⟩
    · rw [Registry.getTopic_update_ne hne] at hu
      exact .inl ⟨c, callOf_eq_some (calls_before hd hu hc) hc, rfl, fun h => h⟩
  | advance ht hu =>
    obtain ⟨d, pc, e, hd, hn, rfl⟩ := Topic.advance_cases hu
    exact .inl (serving_advanced ht hd hn hc)
  | failStore ht hu =>
    obtain ⟨d, pc, e, hd, -, hn, rfl⟩ := Topic.failStore_cases hu
    exact .inl (serving_advanced ht hd hn hc)

theorem Attended.step (h : Attended b) (hs : b.step a = some b') : Attended b' := by
  have hserver := step_server hs
  constructor
  case serves =>
    intro s x opcode name i hx hst
    obtain hx | hnew := hserver.calling hx hst
    · obtain ⟨c, hc, hop⟩ := h.serves s x opcode name i hx hst
      obtain ⟨d, hd, he⟩ := hserver.operation_kept hc
      exact ⟨d, hd, he ▸ hop⟩
    · exact hnew
  case waits =>
    intro name i c hc hpc
    obtain ⟨d, hd, he, hunfinished⟩ | hnew := hserver.serving hc
    · obtain ⟨s, x, hx, hst⟩ := h.waits name i d hd (hunfinished hpc)
      have hstep := hserver.forSession s
      rw [hx] at hstep
      obtain hx' | ⟨ans, hans, -⟩ := hstep.waiting hst hd
      · exact ⟨s, x, hx', he ▸ hst⟩
      · have hf := hunfinished hpc
        rw [hans] at hf
        cases hf
    · exact hnew

/-- Every request that was taken has been answered. -/
def Answered (b : Broker) : Prop := ∀ session ∈ b.sessions, session.pending = []

end Broker

/-- The server with the calls that have taken a message out of their partition. -/
structure Watched where
  broker : Broker := {}
  taken : List (Text × Nat) := []

/-- The call whose step leaves its partition shorter. -/
def Broker.taken (b : Broker) : BrokerAction → List (Text × Nat)
  | .advance name i =>
    match b.callOf name i, b.step (.advance name i) with
    | some c, some b' =>
      if (b'.queue name c.partition).length < (b.queue name c.partition).length then [(name, i)]
      else []
    | _, _ => []
  | _ => []

namespace Watched

def step (x : Watched) (a : BrokerAction) : Option Watched :=
  (x.broker.step a).map fun b => { broker := b, taken := x.taken ++ x.broker.taken a }

/-- What a step may do: a DELETE is answered with an OK exactly when its `remove` has taken a
message and else with an error that says so, and no check meets an empty partition. -/
structure Truthful (x : Watched) (a : BrokerAction) : Prop where
  answer : ∀ (s : Nat) (session : Session) name i b r, x.broker.sessions[s]? = some session →
    session.state = .calling Opcode.delete name i → x.broker.step a = some b →
      b.response s session.output.length = some r →
        (r.errorCode = .ok ↔ (name, i) ∈ x.taken) ∧
          (r.errorCode = .ok ∨ r.errorCode = .messageNotFound ∨ r.errorCode = .emptyPartition)
  checked : ∀ name i t c, a = .advance name i → x.broker.registry.getTopic name = some t →
    t.calls[i]? = some c → ¬ t.DereferencesNull c

/-- A check of `remove` finds its message at the head of its partition. -/
def HeadMatches (x : Watched) (a : BrokerAction) : Prop :=
  ∀ name i t c r padding, a = .advance name i → x.broker.registry.getTopic name = some t →
    t.calls[i]? = some c → c.operation = .remove r padding → c.pc = .inspect ∨ c.pc = .recheck →
      headText (t.queue c.partition) = some r.message.text

variable {x y : Watched} {a : BrokerAction}

theorem mem_taken {b b' : Broker} (hco : b.registry.All Topic.Coherent)
    (hs : b.step a = some b') : (name, i) ∈ b.taken a ↔ ∃ c r padding, a = .advance name i ∧
      b.callOf name i = some c ∧ c.pc = .mutate ∧ c.operation = .remove r padding := by
  have shrinks {name : Text} {i : Nat} {c : Call} (ha : a = .advance name i)
      (hc : b.callOf name i = some c) :
      (b'.queue name c.partition).length < (b.queue name c.partition).length ↔
        c.pc = .mutate ∧ ∃ r padding, c.operation = .remove r padding := by
    obtain ⟨t, ht, hc⟩ := Option.bind_eq_some_iff.1 hc
    obtain ⟨pc, e, hn, ht'⟩ := Broker.step_moves (.inl ha) hs ht hc
    have hcoherent := hco.getTopic ht
    have hr := hcoherent.inRange i c hc
    simp only [Broker.queue, ht, ht', Topic.advanced_queue_self hr]
    constructor
    · exact hn.shorter
    · rintro ⟨hpc, r, padding, hop⟩
      obtain ⟨-, rfl⟩ := hn.takes hpc hop
      have hsound := hcoherent.sound i c hc
      rw [Call.Sound, hop, hpc] at hsound
      cases hq : t.queue c.partition with
      | nil =>
        rw [hq] at hsound
        cases hsound
      | cons m q => exact Nat.lt_succ_self _
  constructor
  · intro hm
    cases a with
    | advance n j =>
      simp only [Broker.taken, hs] at hm
      cases hc : b.callOf n j with
      | none =>
        rw [hc] at hm
        cases hm
      | some c =>
        simp only [hc] at hm
        obtain ⟨hlt, hm⟩ := List.mem_ite_nil_right.1 hm
        cases List.mem_singleton.1 hm
        obtain ⟨hpc, r, padding, hop⟩ := (shrinks rfl hc).1 hlt
        exact ⟨c, r, padding, rfl, hc, hpc, hop⟩
    | _ => cases hm
  · rintro ⟨c, r, padding, rfl, hc, hpc, hop⟩
    simp only [Broker.taken, hs, hc]
    rw [if_pos ((shrinks rfl hc).2 ⟨hpc, r, padding, hop⟩)]
    exact List.mem_singleton_self _

structure Accounts (x : Watched) : Prop where
  coherent : x.broker.registry.All Topic.Coherent
  attended : x.broker.Attended
  taken : ∀ name i, (name, i) ∈ x.taken ↔
    ∃ c, x.broker.callOf name i = some c ∧ c.pc.answer = some (.removed true)

theorem accounts_init : Accounts {} where
  coherent := Registry.all_nil
  attended := by
    constructor
    case serves => intro s session opcode name i hs; cases hs
    case waits => intro name i c hc; cases hc
  taken name i := by
    constructor
    · intro h; cases h
    · rintro ⟨c, hc, -⟩; cases hc

theorem answer_kept {b b' : Broker} (h : Broker.ServerStep b a b')
    (hc : b.callOf name i = some c) (ha : c.pc.answer = some ans) :
    ∃ d, b'.callOf name i = some d ∧ d.pc.answer = some ans := by
  rcases h.callOf_kept hc with hc | ⟨t, pc, e, -, -, hd, hn, ht⟩
  · exact ⟨c, hc, ha⟩
  · exact ⟨_, Broker.callOf_advanced ht hd, hn.answer_kept ha⟩

theorem Accounts.step (h : Accounts x) (hs : x.step a = some y) : Accounts y := by
  obtain ⟨b, hb, rfl⟩ := Option.map_eq_some_iff.1 hs
  have hserver := Broker.step_server hb
  constructor
  case coherent => exact Broker.coherent_step h.coherent hb
  case attended => exact h.attended.step hb
  case taken =>
    intro name i
    rw [List.mem_append, mem_taken h.coherent hb, h.taken]
    constructor
    · rintro (⟨c, hc, ha⟩ | ⟨c, r, padding, rfl, hc, hpc, hop⟩)
      · exact answer_kept hserver hc ha
      · obtain ⟨t, ht, hc⟩ := Option.bind_eq_some_iff.1 hc
        obtain ⟨pc, e, hn, ht'⟩ := Broker.step_moves (.inl rfl) hb ht hc
        refine ⟨_, Broker.callOf_advanced ht' hc, ?_⟩
        rw [(hn.takes hpc hop).1]
        rfl
    · rintro ⟨c, hc, ha⟩
      rcases hserver.callOf_cases hc with hc | ⟨-, hpc⟩ | ⟨t, d, pc, e, hm, ht, hd, hn, rfl⟩
      · exact .inl ⟨c, hc, ha⟩
      · rw [hpc, Operation.start_answer] at ha
        cases ha
      · have hcall := Broker.callOf_eq_some ht hd
        obtain ha | ⟨r, padding, hop, ⟨-, hpc⟩ | ⟨hfalse, -⟩⟩ := hn.removed ha
        · exact .inl ⟨d, hcall, ha⟩
        · obtain rfl | ⟨hst, -⟩ := hm
          · exact .inr ⟨d, r, padding, rfl, hcall, hpc, hop⟩
          · cases hst.symm.trans hpc
        · cases hfalse

theorem remove_of_opcode {op : Operation} (h : opcodeOf op = Opcode.delete) :
    ∃ r padding, op = .remove r padding := by
  cases op with
  | remove r padding => exact ⟨r, padding, rfl⟩
  | push | read => cases h

/-- The session's response to a DELETE: always an OK. -/
theorem Accounts.answered_ok {s : Nat} {session : Session} {b : Broker} (h : Accounts x)
    (hs : x.broker.sessions[s]? = some session)
    (hst : session.state = .calling Opcode.delete name i) (hb : x.broker.step a = some b)
    (hr : b.response s session.output.length = some r) : r.errorCode = .ok ∧
      ∃ c taken, x.broker.callOf name i = some c ∧ c.pc.answer = some (.removed taken) := by
  obtain ⟨c, hc, hop⟩ := h.attended.serves s session _ name i hs hst
  have hstep := (Broker.step_server hb).forSession s
  rw [hs] at hstep
  obtain hx | ⟨ans, hpc, hx⟩ := hstep.waiting hst hc
  · rw [Broker.response, hx, Option.bind_some, List.getElem?_eq_none (Nat.le_refl _)] at hr
    cases hr
  · obtain ⟨q, hsound⟩ := Broker.sound_of_callOf h.coherent hc
    obtain ⟨req, padding, hremove⟩ := remove_of_opcode hop
    rw [Call.Sound, hremove, hpc] at hsound
    obtain ⟨taken, rfl⟩ := hsound
    rw [Broker.response, hx] at hr
    cases List.getElem?_concat_length.symm.trans hr
    exact ⟨rfl, c, taken, hc, by rw [hpc]; rfl⟩

def NoneRefused (b : Broker) : Prop :=
  ∀ name i c, b.callOf name i = some c → c.pc.answer ≠ some (.removed false)

theorem NoneRefused.step (h : NoneRefused x.broker) (hm : HeadMatches x a)
    (hs : x.step a = some y) : NoneRefused y.broker := by
  obtain ⟨b, hb, rfl⟩ := Option.map_eq_some_iff.1 hs
  intro name i c hc ha
  rcases (Broker.step_server hb).callOf_cases hc with
    hc | ⟨-, hpc⟩ | ⟨t, d, pc, e, hmoves, ht, hd, hn, rfl⟩
  · exact h name i c hc ha
  · rw [hpc, Operation.start_answer] at ha
    cases ha
  · obtain ha | ⟨r, padding, hop, ⟨htrue, -⟩ | ⟨-, hpc, hne⟩⟩ := hn.removed ha
    · exact h name i d (Broker.callOf_eq_some ht hd) ha
    · cases htrue
    · obtain rfl | ⟨hst, -⟩ := hmoves
      · exact hne (hm name i t d r padding rfl ht hd hop hpc)
      · rcases hpc with hpc | hpc <;> cases hst.symm.trans hpc

theorem truthful_of_headMatches (hacc : Accounts x) (h : NoneRefused x.broker)
    (hm : HeadMatches x a) : Truthful x a where
  answer s session name i b r hs hst hb hr := by
    obtain ⟨hok, c, taken, hc, ha⟩ := hacc.answered_ok hs hst hb hr
    cases taken with
    | false => exact (h name i c hc ha).elim
    | true => exact ⟨iff_of_true hok ((hacc.taken name i).2 ⟨c, hc, ha⟩), .inl hok⟩
  checked name i t c ha ht hc := by
    rintro ⟨hremove, hpc, hq⟩
    cases hop : c.operation with
    | remove r padding =>
      have hhead := hm name i t c r padding ha ht hc hop hpc
      rw [hq] at hhead
      cases hhead
    | push | read =>
      rw [hop] at hremove
      cases hremove

def RefusalWaits (b : Broker) : Prop :=
  ∃ (s : Nat) (session : Session) (name : Text) (i : Nat) (c : Call),
    b.sessions[s]? = some session ∧ session.state = .calling Opcode.delete name i ∧
      b.callOf name i = some c ∧ c.pc.answer = some (.removed false)

theorem RefusalWaits.step (h : RefusalWaits x.broker) (hacc : Accounts x) (ht : Truthful x a)
    (hs : x.step a = some y) : RefusalWaits y.broker := by
  obtain ⟨b, hb, rfl⟩ := Option.map_eq_some_iff.1 hs
  obtain ⟨s, session, name, i, c, hsession, hst, hc, ha⟩ := h
  have hserver := Broker.step_server hb
  have hstep := hserver.forSession s
  rw [hsession] at hstep
  obtain hx | ⟨ans, -, hx⟩ := hstep.waiting hst hc
  · obtain ⟨d, hd, ha'⟩ := answer_kept hserver hc ha
    exact ⟨s, session, name, i, d, hx, hst, hd, ha'⟩
  · have hr : b.response s session.output.length = some (replyTo Opcode.delete ans) := by
      rw [Broker.response, hx]
      exact List.getElem?_concat_length
    obtain ⟨hok, -⟩ := hacc.answered_ok hsession hst hb hr
    obtain ⟨htaken, -⟩ := ht.answer s session name i b _ hsession hst hb hr
    obtain ⟨d, hd, htrue⟩ := (hacc.taken name i).1 (htaken.1 hok)
    cases hc.symm.trans hd
    cases ha.symm.trans htrue

theorem refusalWaits_of_not (hacc : Accounts x) (h : ¬ HeadMatches x a)
    (hs : x.step a = some y) : RefusalWaits y.broker := by
  obtain ⟨b, hb, rfl⟩ := Option.map_eq_some_iff.1 hs
  simp only [HeadMatches, not_forall] at h
  obtain ⟨name, i, t, c, r, padding, rfl, ht, hc, hop, hpc, hne⟩ := h
  obtain ⟨pc, e, hn, ht'⟩ := Broker.step_moves (.inl rfl) hb ht hc
  have hcall := Broker.callOf_eq_some ht hc
  obtain ⟨s, session, hsession, hst⟩ :=
    hacc.attended.waits name i c hcall hn.not_finished
  rw [hop] at hst
  have hstep := (Broker.step_server hb).forSession s
  rw [hsession] at hstep
  obtain hx | ⟨ans, hans, -⟩ := hstep.waiting hst hcall
  · exact ⟨s, session, name, i, _, hx, hst, Broker.callOf_advanced ht' hc,
      hn.refuses hpc hop hne⟩
  · exact (hn.unfinished hans).elim

theorem headMatches_of_truthful (hacc : Accounts x) (h : AllSteps step Truthful x acts)
    (hr : exec step x acts = some y) (hy : ¬ RefusalWaits y.broker) :
    AllSteps step HeadMatches x acts := by
  induction acts generalizing x with
  | nil => trivial
  | cons a acts ih =>
    obtain ⟨z, hz, hrest⟩ := exec_cons_some.1 hr
    have htail := h.2 z hz
    constructor
    · by_contra hn
      have keep (u : Watched) (a : BrokerAction) (v : Watched)
          (h : Accounts u ∧ RefusalWaits u.broker) (ht : Truthful u a) (hs : u.step a = some v) :
          Accounts v ∧ RefusalWaits v.broker := ⟨h.1.step hs, h.2.step h.1 ht hs⟩
      have hwaits := refusalWaits_of_not hacc hn hz
      exact hy (exec_invariant_of_allSteps keep ⟨hacc.step hz, hwaits⟩ htail hrest).2
    · intro u hu
      cases hz.symm.trans hu
      exact ih (hacc.step hz) htail hrest

theorem not_refusalWaits {b : Broker} (h : b.Answered) : ¬ RefusalWaits b := by
  rintro ⟨s, session, name, i, c, hs, hst, -⟩
  have hp := h session (List.mem_of_getElem? hs)
  rw [Broker.pending_calling hst] at hp
  cases hp

/-- While every check of `remove` finds its message at the head, a DELETE tells the truth; and in
a run that answers all its requests one check that does not is enough for a false answer. -/
theorem delete_truthful_iff (acts : List BrokerAction) :
    (AllSteps step HeadMatches {} acts → AllSteps step Truthful {} acts) ∧
      ∀ x, exec step {} acts = some x → x.broker.Answered →
        AllSteps step Truthful {} acts → AllSteps step HeadMatches {} acts := by
  constructor
  · apply AllSteps.imp (I := fun x => Accounts x ∧ NoneRefused x.broker)
    · exact fun x a y h hm hs => ⟨h.1.step hs, h.2.step hm hs⟩
    · exact fun x a h hm => truthful_of_headMatches h.1 h.2 hm
    · exact ⟨accounts_init, fun name i c hc => (by cases hc)⟩
  · intro x hr hx h
    exact headMatches_of_truthful accounts_init h hr (not_refusalWaits hx)

/-- A DELETE of "c" from the topic "a", whose only message is "b". -/
def wrongDelete : List BrokerAction :=
  [.connect Audited.pushFrame, .receive 0 ⟨true, 0, fun _ => 0, .replicate 5 0⟩,
    .advance [97] 0, .advance [97] 0, .advance [97] 0, .advance [97] 0, .advance [97] 0,
    .advance [97] 0, .reply 0, .connect [0x55, 0x43, 0x4F, 0x4E, 3, 0, 1, 0, 0, 0, 1, 0, 97, 99],
    .receive 1 ⟨true, 0, fun _ => 0, .replicate 5 0⟩, .advance [97] 1, .advance [97] 1,
    .advance [97] 1]

theorem delete_truthful_fails : ¬ ∀ acts, AllSteps step Truthful {} acts := by
  intro h
  have hs : (exec step {} wrongDelete).isSome = true := by decide +kernel
  have ht := (h (wrongDelete ++ [.reply 1])).apply_next (Option.some_get hs).symm
  obtain ⟨htaken, -⟩ := ht.answer 1 _ [97] 1 _ _ rfl rfl rfl rfl
  cases htaken.1 rfl

end Watched
end Rpc
end Noctua
