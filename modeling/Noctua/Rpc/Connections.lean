import Noctua.Rpc.Liveness
import Noctua.Rpc.QueueTable

namespace Noctua.Rpc
open Transition
set_option autoImplicit true

def BrokerAction.connects : BrokerAction → Bool
  | .connect _ => true
  | _ => false

namespace Broker

/-- Connections one after the other: each one is accepted when the server has come to the end of the
one before, and the steps of its session and its calls come as they may. -/
inductive InTurn : Broker → List (List UInt8) → Broker → List (List Response) → Prop where
  | nil (b : Broker) : InTurn b [] b []
  | cons (acts : List BrokerAction) (hr : exec step b (.connect input :: acts) = some b')
      (hacts : ∀ a ∈ acts, a.connects = false)
      (hend : b'.RunsToEnd) (hs : b'.sessions[b.sessions.length]? = some session)
      (h : InTurn b' inputs b'' responses) :
      InTurn b (input :: inputs) b'' (session.output :: responses)

def after (sent : List Response) (x : QueueTable × List Response) : QueueTable × List Response :=
  (x.1, sent ++ x.2)

/-- A session that is served alone, and what is to come of it. -/
inductive Lone (expected : QueueTable × List Response) (others : List Session) (b : Broker) :
    Prop where
  | idle (session : Session) (hrest : b.registry.AtRest) (hs : b.sessions = others ++ [session])
      (hst : session.pending = [])
      (he : expected = after session.output
        (b.registry.table.answer session.remaining.1 session.remaining.2))
  | calling (session : Session) (reg₀ reg : Registry) (env : HandlerEnv) (f : Frame)
      (op : Operation) (t u : Topic) (pc : Pc) (hrest : reg₀.AtRest)
      (hd : handleRequest reg₀ env f = (reg, .call f.topicName op))
      (ht : reg.getTopic f.topicName = some t)
      (hw : Topic.Working t t.calls.length ⟨others.length, op,
        op.partitionIdx requestHash t.storage.length, op.start⟩ u pc)
      (hb : b.registry = reg.update f.topicName u) (hs : b.sessions = others ++ [session])
      (hst : session.state = .calling f.opcode f.topicName t.calls.length)
      (he : expected = after session.output
        (reg₀.table.answer (f :: session.remaining.1) session.remaining.2))

variable {b b' : Broker} {a : BrokerAction} {expected : QueueTable × List Response}
  {others : List Session}

theorem lone_session {x y : Session} (hs : b.sessions = others ++ [x])
    (hcl : ∀ session ∈ others, session.state = .closed) (h : b.sessions[s]? = some y)
    (hy : y.state ≠ .closed) : s = others.length ∧ y = x := by
  rw [hs] at h
  by_cases hlt : s < others.length
  · rw [List.getElem?_append_left hlt] at h
    exact (hy (hcl y (List.mem_of_getElem? h))).elim
  · rw [List.getElem?_append_right (Nat.not_lt.1 hlt)] at h
    have hy := List.mem_singleton.1 (List.mem_of_getElem? h)
    have hz : s - others.length < 1 := (List.getElem?_eq_some_iff.1 h).1
    exact ⟨by omega, hy⟩

theorem sessions_set (hs : b.sessions = others ++ [x]) (y : Session) :
    (b.setSession others.length y).sessions = others ++ [y] := by
  rw [setSession, hs, List.set_append_right _ _ (Nat.le_refl _), Nat.sub_self]
  rfl

theorem not_closed_of_receiving {session : Session} (h : session.state = .receiving) :
    session.state ≠ .closed := by
  rw [h]
  exact SessionState.noConfusion

theorem no_moves {t : Topic} {c : Call} (h : b.registry.AtRest)
    (ht : b.registry.getTopic name = some t) (hc : t.calls[i]? = some c)
    (hn : Topic.Next t i c pc e) : False := by
  have hq := (h.idle.getTopic ht).2 c (List.mem_of_getElem? hc)
  exact Bool.noConfusion (hn.not_finished.symm.trans hq)

theorem lone_receive {session : Session} (hrest : b.registry.AtRest)
    (hs : b.sessions = others ++ [session]) (hst : session.state = .receiving)
    (he : expected = after session.output
      (b.registry.table.answer session.remaining.1 session.remaining.2))
    (hstep : ServerStep b (.receive others.length env) b') (hrecv : b.receiving others.length =
      some session) : Lone expected others b' := by
  rw [remaining_open (not_closed_of_receiving hst), handleRequests_eq] at he
  cases hstep with
  | closed hs' hr =>
    obtain rfl := Option.some.inj (hrecv.symm.trans hs')
    rw [hr] at he
    exact .idle session.close hrest (sessions_set hs _) rfl he
  | badMagic hs' hr | tooLarge hs' hr =>
    obtain rfl := Option.some.inj (hrecv.symm.trans hs')
    rw [hr] at he
    refine .idle _ hrest (sessions_set hs _) rfl ?_
    rw [he, remaining_closed rfl]
    simp only [after, QueueTable.answer, setSession, Session.close, Session.send,
      Option.toList_some, Option.toList_none, List.append_nil]
  | @answered _ _ f rest env r hs' hr hd =>
    obtain rfl := Option.some.inj (hrecv.symm.trans hs')
    rw [hr] at he
    have hserved : Registry.Served b.registry ⟨f, env, others.length, none⟩ b.registry r :=
      .respond hd
    have hopen : (({ session with input := rest } : Session).send r).state ≠ .closed :=
      not_closed_of_receiving hst
    refine .idle _ hrest (sessions_set hs _) (pending_receiving hst) ?_
    rw [he, remaining_open hopen]
    simp only [after, QueueTable.answer, (hserved.table hrest).1, setSession, Session.send,
      List.append_assoc, List.singleton_append]
  | @called _ _ f rest env reg name op t u hs' hr hd ht hu =>
    obtain rfl := Option.some.inj (hrecv.symm.trans hs')
    rw [hr] at he
    obtain ⟨rfl, -⟩ := handleRequest_call hd
    obtain ⟨hp, rfl⟩ := Topic.invoke_cases hu
    have hrest' := hrest.handleRequest env f
    rw [hd] at hrest'
    obtain ⟨hco, hq⟩ := hrest'.idle.getTopic ht
    exact .calling { session with
        input := rest, state := .calling f.opcode f.topicName t.calls.length }
      b.registry reg env f op t _ op.start hrest hd ht (Topic.working_invoked hco hq hp) rfl
      (sessions_set (b := { b with registry := _ }) hs _) rfl he

theorem lone_moved {session : Session} {reg₀ reg : Registry} {env : HandlerEnv} {f : Frame}
    {op : Operation} {t u v : Topic} {pc pc' : Pc} {c : Call} (hrest : reg₀.AtRest)
    (hd : handleRequest reg₀ env f = (reg, .call f.topicName op))
    (ht : reg.getTopic f.topicName = some t)
    (hw : Topic.Working t t.calls.length ⟨others.length, op,
      op.partitionIdx requestHash t.storage.length, op.start⟩ u pc)
    (hb : b.registry = reg.update f.topicName u) (hs : b.sessions = others ++ [session])
    (hst : session.state = .calling f.opcode f.topicName t.calls.length)
    (he : expected = after session.output
      (reg₀.table.answer (f :: session.remaining.1) session.remaining.2))
    (hv : b.registry.getTopic name = some v) (hc : v.calls[i]? = some c)
    (hn : Topic.Next v i c pc' e) :
    Lone expected others (b.advanced name (v.advanced i c pc' e)) := by
  have hrest' := hrest.handleRequest env f
  rw [hd] at hrest'
  by_cases hname : name = f.topicName
  · subst hname
    rw [hb, Registry.getTopic_update_self ht] at hv
    obtain rfl := Option.some.inj hv
    have hi : i = t.calls.length := by
      by_contra hi
      exact Bool.noConfusion (hn.not_finished.symm.trans (hw.others i c hi hc))
    subst hi
    obtain rfl := Option.some.inj (hw.call.symm.trans hc)
    refine .calling session reg₀ reg env f op t _ pc' hrest hd ht (hw.advanced hn) ?_ hs hst he
    rw [advanced, hb, Registry.update_update]
  · rw [hb, Registry.getTopic_update_ne hname] at hv
    have hq := (hrest'.idle.getTopic hv).2 c (List.mem_of_getElem? hc)
    exact Bool.noConfusion (hn.not_finished.symm.trans hq)

theorem lone_reply {session : Session} {reg₀ reg : Registry} {env : HandlerEnv} {f : Frame}
    {op : Operation} {t u : Topic} (hrest : reg₀.AtRest)
    (hd : handleRequest reg₀ env f = (reg, .call f.topicName op))
    (ht : reg.getTopic f.topicName = some t)
    (hw : Topic.Working t t.calls.length ⟨others.length, op,
      op.partitionIdx requestHash t.storage.length, op.start⟩ u (.finished ans))
    (hb : b.registry = reg.update f.topicName u) (hs : b.sessions = others ++ [session])
    (hst : session.state = .calling f.opcode f.topicName t.calls.length)
    (he : expected = after session.output
      (reg₀.table.answer (f :: session.remaining.1) session.remaining.2)) :
    Lone expected others (b.setSession others.length
      { session.send (replyTo f.opcode ans) with state := .receiving }) := by
  let x : Handling := ⟨f, env, others.length, none⟩
  obtain ⟨-, -, hother, t', ht', hsame⟩ := Registry.handled_call (x := x) hrest.idle hd
  obtain rfl := Option.some.inj (ht.symm.trans ht')
  have hserved : Registry.Served reg₀ x b.registry (replyTo f.opcode ans) := by
    rw [hb]
    exact .call (x := x) hd ht hother hsame hw.completed
  obtain ⟨hhandle, hrest'⟩ := hserved.table hrest
  refine .idle _ hrest' (sessions_set hs _) rfl ?_
  have hopen : session.state ≠ .closed := by
    rw [hst]
    exact SessionState.noConfusion
  rw [he, remaining_open hopen, remaining_open (by nofun)]
  have hhandle' : reg₀.table.handle f = (b.registry.table, replyTo f.opcode ans) := hhandle
  simp only [after, QueueTable.answer, hhandle', setSession, Session.send, List.append_assoc,
    List.singleton_append]

theorem Lone.step (h : Lone expected others b)
    (hcl : ∀ session ∈ others, session.state = .closed) (ha : a.connects = false)
    (hs : b.step a = some b') : Lone expected others b' := by
  have hserver := step_server hs
  cases h with
  | idle session hrest hsessions hst he =>
    cases a with
    | connect => cases ha
    | receive s env =>
      obtain ⟨y, hy, -⟩ := Option.bind_eq_some_iff.1 hs
      obtain ⟨hget, hr⟩ := receiving_eq_some.1 hy
      obtain ⟨rfl, rfl⟩ := lone_session hsessions hcl hget (not_closed_of_receiving hr)
      exact lone_receive hrest hsessions hr he hserver hy
    | advance name i =>
      cases hserver with
      | advance ht hu =>
        obtain ⟨c, pc, e, hc, hn, -⟩ := Topic.advance_cases hu
        exact (no_moves hrest ht hc hn).elim
    | failStore name i kept =>
      cases hserver with
      | failStore ht hu =>
        obtain ⟨c, pc, e, hc, -, hn, -⟩ := Topic.failStore_cases hu
        exact (no_moves hrest ht hc hn).elim
    | reply s =>
      cases hserver with
      | reply hget hc =>
        have hopen := hc.trans_ne (SessionState.noConfusion : _ ≠ SessionState.closed)
        obtain ⟨-, rfl⟩ := lone_session hsessions hcl hget hopen
        rw [pending_calling hc] at hst
        cases hst
  | calling session reg₀ reg env f op t u pc hrest hd ht hw hb hsessions hst he =>
    cases a with
    | connect => cases ha
    | receive s env =>
      obtain ⟨y, hy, -⟩ := Option.bind_eq_some_iff.1 hs
      obtain ⟨hget, hr⟩ := receiving_eq_some.1 hy
      obtain ⟨-, rfl⟩ := lone_session hsessions hcl hget (not_closed_of_receiving hr)
      cases hst.symm.trans hr
    | advance name i =>
      cases hserver with
      | advance hv hu =>
        obtain ⟨c, pc', e, hc, hn, rfl⟩ := Topic.advance_cases hu
        exact lone_moved hrest hd ht hw hb hsessions hst he hv hc hn
    | failStore name i kept =>
      cases hserver with
      | failStore hv hu =>
        obtain ⟨c, pc', e, hc, -, hn, rfl⟩ := Topic.failStore_cases hu
        exact lone_moved hrest hd ht hw hb hsessions hst he hv hc hn
    | reply s =>
      cases hserver with
      | reply hget hc hv hcall hpc =>
        have hopen := hc.trans_ne (SessionState.noConfusion : _ ≠ SessionState.closed)
        obtain ⟨rfl, rfl⟩ := lone_session hsessions hcl hget hopen
        cases hst.symm.trans hc
        rw [hb, Registry.getTopic_update_self ht] at hv
        obtain rfl := Option.some.inj hv
        obtain rfl := Option.some.inj (hw.call.symm.trans hcall)
        obtain rfl : pc = _ := hpc
        exact lone_reply hrest hd ht hw hb hsessions hst he

theorem lone_connect (hrest : b.registry.AtRest) (input : List UInt8) :
    Lone (b.registry.table.answer (handleRequests input).1 (handleRequests input).2) b.sessions
      { b with sessions := b.sessions ++ [{ input := input }] } :=
  .idle { input := input } hrest rfl rfl (by rw [remaining_open (by nofun)]; rfl)

/-- When its session has closed, a connection has been answered as the table answers it. -/
theorem Lone.closed (h : Lone expected others b)
    (hcl : ∀ session ∈ others, session.state = .closed) {session : Session}
    (hs : b.sessions[others.length]? = some session) (hst : session.state = .closed) :
    b.registry.AtRest ∧ (∀ x ∈ b.sessions, x.state = .closed) ∧
      expected = (b.registry.table, session.output) := by
  have last {x : Session} (hx : b.sessions = others ++ [x]) : x = session := by
    rw [hx, List.getElem?_concat_length] at hs
    exact Option.some.inj hs
  cases h with
  | idle x hrest hsessions hpending he =>
    obtain rfl := last hsessions
    refine ⟨hrest, ?_, ?_⟩
    · rw [hsessions]
      exact List.forall_mem_append.2 ⟨hcl, fun y hy => List.mem_singleton.1 hy ▸ hst⟩
    · rw [he, remaining_closed hst, after, QueueTable.answer, Option.toList_none, List.append_nil]
  | calling x reg₀ reg env f op t u pc hrest hd ht hw hb hsessions hx he =>
    obtain rfl := last hsessions
    cases hst.symm.trans hx

theorem InTurn.serves (h : InTurn b inputs b' responses) (hatt : b.Attended)
    (hrest : b.registry.AtRest) (hcl : ∀ session ∈ b.sessions, session.state = .closed) :
    b.registry.table.serve inputs = (b'.registry.table, responses) ∧
      ∀ session ∈ b'.sessions, session.state = .closed := by
  induction h with
  | nil b => exact ⟨rfl, hcl⟩
  | cons acts hr hacts hend hs h ih =>
    have hatt' := exec_invariant (fun _ _ _ h hs => h.step hs) hatt hr
    obtain ⟨b₁, hstep, hrun⟩ := exec_cons_some.1 hr
    cases hstep
    have hlone := exec_invariant_of_allSteps (fun _ _ _ hl ha hs => Lone.step hl hcl ha.2 hs)
      (lone_connect hrest _) ((allSteps_true _ acts).and_mem hacts) hrun
    have hco := exec_invariant
      (topics_rule (Topic.coherent_init _) fun _ _ _ h hs => h.step hs)
      (fun x hx => (hrest.idle x hx).1) hr
    obtain ⟨hrest', hcl', he⟩ := hlone.closed hcl hs (hend.closed hatt' hco hs)
    obtain ⟨hserve, hclosed⟩ := ih hatt' hrest' hcl'
    exact ⟨by simp only [QueueTable.serve, he, hserve], hclosed⟩

/-- When connections come one after the other, and the server comes to the end of each without
undefined behaviour, it is a table of queues: whatever bytes they carry and however the steps of a
session and its calls come, each is answered as the table answers its frames in order and is closed,
and the partitions hold what the table holds. -/
theorem serves_as_table (h : InTurn {} inputs b responses) :
    QueueTable.empty.serve inputs = (b.registry.table, responses) ∧
      ∀ session ∈ b.sessions, session.state = .closed :=
  h.serves attended_init Registry.atRest_nil fun _ hs => nomatch hs

/-- A PUSH of "b" to the topic "a", and then a PULL by another client. -/
def pushThenPull : List (List UInt8) :=
  [Audited.pushFrame, [0x55, 0x43, 0x4F, 0x4E, 2, 0, 1, 0, 0, 0, 0, 0, 97]]

theorem inTurn_pushThenPull :
    ∃ b, InTurn {} pushThenPull b [[okResponse Opcode.push], [dataResponse Opcode.pull [98]]] := by
  let env : HandlerEnv := ⟨true, 0, fun _ => 0, .replicate 5 0⟩
  let push : List BrokerAction :=
    .receive 0 env :: List.replicate 6 (.advance [97] 0) ++ [.reply 0, .receive 0 env]
  let pull : List BrokerAction :=
    .receive 1 env :: List.replicate 3 (.advance [97] 1) ++ [.reply 1, .receive 1 env]
  have first : (exec step {} (.connect Audited.pushFrame :: push)).map Broker.sessions =
      some [⟨[], .closed, [okResponse Opcode.push]⟩] := by decide +kernel
  have both : (exec step {} (.connect Audited.pushFrame :: push ++
      .connect [0x55, 0x43, 0x4F, 0x4E, 2, 0, 1, 0, 0, 0, 0, 0, 97] :: pull)).map
        Broker.sessions = some [⟨[], .closed, [okResponse Opcode.push]⟩,
      ⟨[], .closed, [dataResponse Opcode.pull [98]]⟩] := by decide +kernel
  obtain ⟨b₁, h₁, hs₁⟩ := Option.map_eq_some_iff.1 first
  obtain ⟨b₂, h₂, hs₂⟩ := Option.map_eq_some_iff.1 both
  have closed {b : Broker} {acts : List BrokerAction} (hr : exec step {} acts = some b)
      (hs : ∀ session ∈ b.sessions, session.state = .closed) : b.RunsToEnd :=
    runsToEnd_of_closed (attended_of_exec hr) hs
  have hend₁ := closed h₁ (by rw [hs₁]; decide)
  have hend₂ := closed h₂ (by rw [hs₂]; decide)
  rw [exec_append, h₁] at h₂
  have hlast : b₂.sessions[b₁.sessions.length]? =
      some ⟨[], .closed, [dataResponse Opcode.pull [98]]⟩ := by
    rw [hs₁, hs₂]
    rfl
  have hfirst : b₁.sessions[0]? = some ⟨[], .closed, [okResponse Opcode.push]⟩ := by
    rw [hs₁]
    rfl
  exact ⟨b₂, .cons push h₁ (by decide) hend₁ hfirst
    (.cons pull h₂ (by decide) hend₂ hlast (.nil _))⟩

theorem serves_as_table_pushThenPull :
    ∃ b, InTurn {} pushThenPull b [[okResponse Opcode.push], [dataResponse Opcode.pull [98]]] ∧
      QueueTable.empty.serve pushThenPull =
        (b.registry.table, [[okResponse Opcode.push], [dataResponse Opcode.pull [98]]]) := by
  obtain ⟨b, hturn⟩ := inTurn_pushThenPull
  exact ⟨b, hturn, (serves_as_table hturn).1⟩

end Broker
end Noctua.Rpc
