import Noctua.Library.Unwinding
import Noctua.Rpc.ServerStep
import Noctua.Topic.Alone

namespace Noctua.Rpc
open Transition
set_option autoImplicit true

/-- A request with what its handling meets; where the store of its record fails, `lost` is how much
of it reaches the file. -/
structure Handling where
  frame : Frame
  env : HandlerEnv
  client : Nat
  lost : Option Nat

/-- The same response, or calls whose requests differ in their addresses and padding only; a
handler that fails agrees with any. -/
inductive Dispatch.Agree : Dispatch → Dispatch → Prop where
  | respond : Agree (.respond r) (.respond r)
  | call (hop : op.fifo = op'.fifo)
      (hidx : ∀ n, op.partitionIdx requestHash n = op'.partitionIdx requestHash n) :
      Agree (.call name op) (.call name op')
  | failed (h : d = .overflow ∨ d = .abort ∨ d' = .overflow ∨ d' = .abort) : Agree d d'

section
variable {reg reg' : Registry} {env env' : HandlerEnv} {f : Frame}

theorem requestAt_topicName (env : HandlerEnv) (f : Frame) :
    (requestAt (handlerMemory env.cell env.buffer f) env.buffer).topicName = f.topicName :=
  topicName_createRequest _ _ _ _ _ f.topicName_short

theorem requestAt_message (env : HandlerEnv) (f : Frame) :
    (requestAt (handlerMemory env.cell env.buffer f) env.buffer).message.text = f.message :=
  messageView_createRequest _ _ _ _ _ f.topicName_short f.message_short

theorem callWithRequest_agree {o : Request → Padding → Operation}
    (ho : ∀ r r' p p', r.topicName = r'.topicName → r.partitionId = r'.partitionId →
      r.message.text = r'.message.text → (o r p).fifo = (o r' p').fifo ∧
        ∀ n, (o r p).partitionIdx requestHash n = (o r' p').partitionIdx requestHash n)
    (env env' : HandlerEnv) (f : Frame) :
    (callWithRequest env f o).Agree (callWithRequest env' f o) := by
  simp only [callWithRequest]
  split
  · split
    · obtain ⟨hop, hidx⟩ := ho (requestAt (handlerMemory env.cell env.buffer f) env.buffer)
        (requestAt (handlerMemory env'.cell env'.buffer f) env'.buffer) env.padding env'.padding
        ((requestAt_topicName env f).trans (requestAt_topicName env' f).symm)
        ((requestAt_handlerMemory env f).trans (requestAt_handlerMemory env' f).symm)
        ((requestAt_message env f).trans (requestAt_message env' f).symm)
      exact .call hop hidx
    · exact .failed (.inr (.inr (.inl rfl)))
  · exact .failed (.inl rfl)

theorem handlePush_agree : (handlePush reg env f).2.Agree (handlePush reg' env' f).2 := by
  rw [handlePush, handlePush]
  split
  · exact .respond
  · split
    · exact .failed (.inr (.inl rfl))
    · split
      · exact .failed (.inr (.inr (.inr rfl)))
      · apply callWithRequest_agree
        intro r r' p p' hname hid htext
        refine ⟨by rw [Operation.fifo, Operation.fifo, htext], fun n => ?_⟩
        rw [Operation.partitionIdx, Operation.partitionIdx, requestHash_congr hname, hid]

theorem handlePull_congr
    (hk : (reg.getTopic f.topicName).isSome = (reg'.getTopic f.topicName).isSome) :
    handlePull reg f = handlePull reg' f := by
  rw [handlePull, handlePull]
  cases ht : reg.getTopic f.topicName <;> cases ht' : reg'.getTopic f.topicName
  case none.none | some.some => rfl
  all_goals
    rw [ht, ht'] at hk
    cases hk

theorem Dispatch.Agree.refl (d : Dispatch) : d.Agree d := by
  cases d with
  | respond r => exact .respond
  | call name op => exact .call rfl fun _ => rfl
  | overflow => exact .failed (.inl rfl)
  | abort => exact .failed (.inr (.inl rfl))

theorem Dispatch.Agree.respond_eq (h : (Dispatch.respond r).Agree (.respond r')) : r = r' := by
  cases h with
  | respond => rfl
  | failed h => rcases h with h | h | h | h <;> cases h

theorem Dispatch.Agree.call_similar (h : (Dispatch.call n op).Agree (.call n' op')) :
    op.fifo = op'.fifo ∧
      ∀ size, op.partitionIdx requestHash size = op'.partitionIdx requestHash size := by
  cases h with
  | call hop hidx => exact ⟨hop, hidx⟩
  | failed h => rcases h with h | h | h | h <;> cases h

theorem Dispatch.not_agree_call : ¬ (Dispatch.respond r).Agree (.call n op) := by
  rintro (_ | _ | h)
  rcases h with h | h | h | h <;> cases h

theorem Dispatch.not_agree_respond : ¬ (Dispatch.call n op).Agree (.respond r) := by
  rintro (_ | _ | h)
  rcases h with h | h | h | h <;> cases h

theorem handleDelete_agree
    (hk : (reg.getTopic f.topicName).isSome = (reg'.getTopic f.topicName).isSome) :
    (handleDelete reg env f).Agree (handleDelete reg' env' f) := by
  rw [handleDelete, handleDelete]
  cases ht : reg.getTopic f.topicName <;> cases ht' : reg'.getTopic f.topicName
  case none.none => exact .refl _
  case some.some =>
    split
    · exact .respond
    · simp only
      split
      · exact .respond
      · apply callWithRequest_agree
        intro r r' p p' hname hid htext
        exact ⟨by rw [Operation.fifo, Operation.fifo, htext], fun n => hid⟩
  all_goals
    rw [ht, ht'] at hk
    cases hk

theorem handleRequest_agree
    (hk : (reg.getTopic f.topicName).isSome = (reg'.getTopic f.topicName).isSome) :
    (handleRequest reg env f).2.Agree (handleRequest reg' env' f).2 := by
  rw [handleRequest, handleRequest]
  split
  · exact handlePush_agree
  · split
    · rw [handlePull_congr hk]
      exact .refl _
    · split
      · exact handleDelete_agree hk
      · exact .respond

end

namespace Registry
variable {reg reg' : Registry} {x : Handling} {name : Text}

/-- `handle_request` awaited to its end while no other request is handled. -/
def serve (reg : Registry) (x : Handling) : Option (Registry × Response) :=
  let (reg, d) := handleRequest reg x.env x.frame
  match d with
  | .respond r => some (reg, r)
  | .call topicName op => (reg.getTopic topicName).bind fun t =>
    (t.complete requestHash x.lost x.client op).map fun (u, a) =>
      (reg.update topicName u, replyTo x.frame.opcode a)
  | .overflow | .abort => none

def serveNext (reg : Registry) (x : Handling) : Option Registry := (reg.serve x).map Prod.fst

/-- No handler leaves its buffer or a partition's range, meets an empty partition in `remove`, or
aborts. -/
def Serves (reg : Registry) (x : Handling) : Prop :=
  let (reg, d) := handleRequest reg x.env x.frame
  match d with
  | .respond _ => True
  | .call topicName op => ∀ t, reg.getTopic topicName = some t →
    let p := op.partitionIdx requestHash t.storage.length
    op.asserts = true ∧ p.toNat < t.storage.length ∧ (op.isRemove = true → t.queue p ≠ [])
  | .overflow | .abort => False

instance (reg : Registry) (x : Handling) : Decidable (reg.Serves x) :=
  match h : handleRequest reg x.env x.frame with
  | (_, .respond _) => isTrue (by rw [Serves, h]; trivial)
  | (reg', .call topicName op) => decidable_of_iff (∀ t, reg'.getTopic topicName = some t →
      let p := op.partitionIdx requestHash t.storage.length
      op.asserts = true ∧ p.toNat < t.storage.length ∧ (op.isRemove = true → t.queue p ≠ []))
      (by rw [Serves, h])
  | (_, .overflow) | (_, .abort) => isFalse (by rw [Serves, h]; exact id)

def requestOn (name : Text) (x : Handling) : Option Frame :=
  if x.frame.topicName = name then some x.frame else none

def responsesOn (name : Text) (reg : Registry) (x : Handling) : List Response :=
  if x.frame.topicName = name then (reg.serve x).toList.map Prod.snd else []

def contentsOf (name : Text) (reg : Registry) : Option (List (List Text)) :=
  (reg.getTopic name).map Topic.contents

/-- Between the requests no call is unfinished. -/
def Idle (reg : Registry) : Prop := reg.All fun t => t.Coherent ∧ t.Quiet

/-- What the handling of a request comes to. -/
inductive Served (reg : Registry) (x : Handling) : Registry → Response → Prop where
  | respond (hd : handleRequest reg x.env x.frame = (reg, .respond r)) : Served reg x reg r
  | call (hd : handleRequest reg x.env x.frame = (reg₁, .call x.frame.topicName op))
      (ht : reg₁.getTopic x.frame.topicName = some t)
      (hother : ∀ name, name ≠ x.frame.topicName → reg₁.getTopic name = reg.getTopic name)
      (hsame : t.contents = (contentsOf x.frame.topicName reg).getD
        (Topic.init partitionsCount).contents)
      (hu : t.Completed op (op.partitionIdx requestHash t.storage.length) u a) :
      Served reg x (reg₁.update x.frame.topicName u) (replyTo x.frame.opcode a)

theorem handled_call (hi : reg.Idle)
    (hd : handleRequest reg x.env x.frame = (reg', .call n op)) :
    n = x.frame.topicName ∧ reg'.Idle ∧
      (∀ name, name ≠ x.frame.topicName → reg'.getTopic name = reg.getTopic name) ∧
      ∃ t, reg'.getTopic n = some t ∧ t.contents =
        (contentsOf n reg).getD (Topic.init partitionsCount).contents := by
  have hidle : reg'.Idle := by
    have hinit : (Topic.init partitionsCount).Coherent ∧ (Topic.init partitionsCount).Quiet :=
      ⟨Topic.coherent_init _, fun _ hc => nomatch hc⟩
    have hall := All.handleRequest hi hinit x.env x.frame
    rw [hd] at hall
    exact hall
  obtain ⟨rfl, ⟨rfl, t, ht⟩ | ⟨hnone, -, -, rfl⟩⟩ := handleRequest_call hd
  · exact ⟨rfl, hidle, fun _ _ => rfl, t, ht, by rw [contentsOf, ht]; rfl⟩
  · refine ⟨rfl, hidle, fun _ hne => getTopic_append_ne hne, _, getTopic_append_self hnone, ?_⟩
    rw [contentsOf, hnone]
    rfl

theorem served_of_serve (hi : reg.Idle) (h : reg.serve x = some (reg', r)) :
    Served reg x reg' r := by
  cases hd : handleRequest reg x.env x.frame with
  | mk reg₁ d =>
    rw [serve, hd] at h
    cases d with
    | respond r =>
      obtain ⟨hreg, -⟩ := handleRequest_respond hd
      subst hreg
      cases h
      exact .respond hd
    | call n op =>
      obtain ⟨t, ht, h⟩ := Option.bind_eq_some_iff.1 h
      obtain ⟨⟨u, a⟩, hu, he⟩ := Option.map_eq_some_iff.1 h
      cases he
      obtain ⟨rfl, hidle, hother, t', ht', hsame⟩ := handled_call hi hd
      obtain rfl := Option.some.inj (ht.symm.trans ht')
      obtain ⟨hco, hq⟩ := All.getTopic hidle ht
      exact .call hd ht hother hsame (Topic.completed_of_complete hco hq hu)
    | overflow => cases h
    | abort => cases h

theorem serve_total (hi : reg.Idle) (hs : reg.Serves x) :
    ∃ reg' r, reg.serve x = some (reg', r) := by
  cases hd : handleRequest reg x.env x.frame with
  | mk reg₁ d =>
    rw [Serves, hd] at hs
    rw [serve, hd]
    cases d with
    | respond r => exact ⟨_, _, rfl⟩
    | call n op =>
      obtain ⟨rfl, hidle, -, t, ht, -⟩ := handled_call hi hd
      obtain ⟨ha, hp, hne⟩ := hs t ht
      obtain ⟨hco, hq⟩ := All.getTopic hidle ht
      obtain ⟨u, a, hu⟩ := Topic.complete_total hco hq ha hp hne x.lost x.client
      simp only [ht, Option.bind_some, hu]
      exact ⟨_, _, rfl⟩
    | overflow => exact hs.elim
    | abort => exact hs.elim

theorem Served.idle (hi : reg.Idle) (h : Served reg x reg' r) : reg'.Idle := by
  cases h with
  | respond hd => exact hi
  | call hd ht hother hsame hu =>
    obtain ⟨-, hidle, -⟩ := handled_call hi hd
    exact All.update hidle ⟨hu.coherent, hu.quiet⟩

theorem Served.other (h : Served reg x reg' r) (hne : name ≠ x.frame.topicName) :
    contentsOf name reg' = contentsOf name reg := by
  cases h with
  | respond hd => rfl
  | call hd ht hother hsame hu =>
    rw [contentsOf, getTopic_update_ne hne, hother name hne, contentsOf]

theorem replyTo_congr {a a' : Answer} (h : a.fifo = a'.fifo) (opcode : UInt8) :
    replyTo opcode a = replyTo opcode a' := by
  cases a with
  | pushed => cases a' <;> first | rfl | cases h
  | removed taken => cases a' <;> first | rfl | cases h
  | message m =>
    cases a' with
    | message m' =>
      have hm : m.map Message.text = m'.map Message.text := Fifo.Res.front.inj h
      cases m with
      | none => cases m' <;> first | rfl | cases hm
      | some m =>
        cases m' with
        | none => cases hm
        | some m' => rw [replyTo, replyTo, Option.some.inj hm]
    | _ => cases h

/-- What the handling of a request does to its topic, and its response, follow from the request
and the contents of that topic. -/
theorem Served.consistent {reg₁ reg₂ reg₁' reg₂' : Registry} {x y : Handling}
    (h₁ : Served reg₁ x reg₁' r) (h₂ : Served reg₂ y reg₂' r') (hf : x.frame = y.frame)
    (hc : contentsOf x.frame.topicName reg₁ = contentsOf x.frame.topicName reg₂) :
    contentsOf x.frame.topicName reg₁' = contentsOf x.frame.topicName reg₂' ∧ r = r' := by
  obtain ⟨f, env, client, lost⟩ := x
  obtain ⟨f', env', client', lost'⟩ := y
  obtain rfl : f = f' := hf
  have hk : (reg₁.getTopic f.topicName).isSome = (reg₂.getTopic f.topicName).isSome := by
    have hs := congrArg Option.isSome hc
    rw [contentsOf, contentsOf, Option.isSome_map, Option.isSome_map] at hs
    exact hs
  have ha : (handleRequest reg₁ env f).2.Agree (handleRequest reg₂ env' f).2 :=
    handleRequest_agree hk
  cases h₁ with
  | respond hd =>
    rw [hd] at ha
    cases h₂ with
    | respond hd' =>
      rw [hd'] at ha
      exact ⟨hc, ha.respond_eq⟩
    | call hd' =>
      rw [hd'] at ha
      exact (Dispatch.not_agree_call ha).elim
  | @call reg₁' op t u a hd ht hother hsame hu =>
    rw [hd] at ha
    cases h₂ with
    | respond hd' =>
      rw [hd'] at ha
      exact (Dispatch.not_agree_respond ha).elim
    | @call reg₂' op' t' u' a' hd' ht' hother' hsame' hu' =>
      rw [hd'] at ha
      obtain ⟨hop, hidx⟩ := ha.call_similar
      have hcont : t.contents = t'.contents := hsame.trans (hc ▸ hsame'.symm)
      have hlen : t.storage.length = t'.storage.length := by
        have hl := congrArg List.length hcont
        rw [Topic.contents, Topic.contents, List.length_map, List.length_map] at hl
        exact hl
      rw [hidx, hlen] at hu
      obtain ⟨hcu, hans⟩ := hu.determined hu' hcont hop
      refine ⟨?_, replyTo_congr hans _⟩
      rw [contentsOf, contentsOf, getTopic_update_self ht, getTopic_update_self ht',
        Option.map_some, Option.map_some, hcu]

theorem serve_unwinding (name : Text) : Unwinding serveNext Idle (contentsOf name)
    (requestOn name) (responsesOn name) where
  keep := by
    intro reg x reg' hi hs
    obtain ⟨⟨_, r⟩, h, rfl⟩ := Option.map_eq_some_iff.1 hs
    exact (served_of_serve hi h).idle hi
  respects := by
    intro reg x reg' hi hn hs
    obtain ⟨⟨_, r⟩, h, rfl⟩ := Option.map_eq_some_iff.1 hs
    have hne : x.frame.topicName ≠ name := by
      intro he
      rw [requestOn, if_pos he] at hn
      cases hn
    exact ⟨(served_of_serve hi h).other (Ne.symm hne), if_neg hne⟩
  consistent := by
    intro reg₁ reg₂ x y f reg₁' reg₂' hi₁ hi₂ hv hx hy hs₁ hs₂
    obtain ⟨⟨_, r⟩, h₁, rfl⟩ := Option.map_eq_some_iff.1 hs₁
    obtain ⟨⟨_, r'⟩, h₂, rfl⟩ := Option.map_eq_some_iff.1 hs₂
    obtain ⟨hnx, hx⟩ := Option.ite_none_right_eq_some.1 hx
    obtain ⟨hny, hy⟩ := Option.ite_none_right_eq_some.1 hy
    have hf : x.frame = y.frame := Option.some.inj (hx.trans hy.symm)
    subst hnx
    obtain ⟨hc, rfl⟩ := (served_of_serve hi₁ h₁).consistent (served_of_serve hi₂ h₂) hf hv
    refine ⟨hc, ?_⟩
    rw [responsesOn, responsesOn, if_pos rfl, if_pos hny, h₁, h₂]
    rfl

theorem update_update (reg : Registry) (t u : Topic) :
    (reg.update name t).update name u = reg.update name u := by
  rw [update, update, List.map_map]
  apply List.map_congr_left
  intro x hx
  by_cases hn : x.1 = name
  · simp only [Function.comp, if_pos hn]
  · simp only [Function.comp, if_neg hn]

theorem idle_nil : Idle [] := all_nil

theorem exec_of_serves (hi : reg.Idle) (h : AllSteps serveNext Serves reg xs) :
    ∃ reg', exec serveNext reg xs = some reg' := by
  induction xs generalizing reg with
  | nil => exact ⟨reg, rfl⟩
  | cons x xs ih =>
    obtain ⟨reg₁, r, hs⟩ := serve_total hi h.1
    have hn : serveNext reg x = some reg₁ := by rw [serveNext, hs, Option.map_some]
    obtain ⟨reg', hr⟩ := ih ((serve_unwinding []).keep reg x reg₁ hi hn) (h.2 reg₁ hn)
    exact ⟨reg', exec_cons_some.2 ⟨reg₁, hn, hr⟩⟩

/-- What a topic answers and what it holds in the end depend on the requests to it alone. -/
theorem topics_independent (name : Text) (xs ys : List Handling)
    (hx : AllSteps serveNext Serves [] xs) (hy : AllSteps serveNext Serves [] ys)
    (he : xs.filterMap (requestOn name) = ys.filterMap (requestOn name)) :
    ∃ reg reg', exec serveNext [] xs = some reg ∧ exec serveNext [] ys = some reg' ∧
      contentsOf name reg = contentsOf name reg' ∧
      collect serveNext (responsesOn name) [] xs = collect serveNext (responsesOn name) [] ys := by
  obtain ⟨reg, hr⟩ := exec_of_serves idle_nil hx
  obtain ⟨reg', hr'⟩ := exec_of_serves idle_nil hy
  exact ⟨reg, reg', hr, hr',
    (serve_unwinding name).noninterference idle_nil idle_nil rfl he hr hr'⟩

def smallFrame (opcode : UInt8) (topic : UInt8) (message : UInt8) : Frame where
  opcode := opcode
  partitionId := 0
  topicName := [topic]
  message := [message]
  fits := (by decide : 1 + 1 ≤ receiveBufferSize - sizeofRequestHeader)

def handling (f : Frame) (lost : Option Nat) : Handling :=
  ⟨f, ⟨true, 0, fun _ => 0, .replicate 5 0⟩, 0, lost⟩

/-- The same two requests to topic `a`, with requests to topic `b` around them in one run only. -/
theorem topics_independent_interleaved :
    let xs := [handling (smallFrame Opcode.push 97 120) none,
      handling (smallFrame Opcode.pull 97 0) none]
    let ys := [handling (smallFrame Opcode.push 98 121) none,
      handling (smallFrame Opcode.push 97 120) (some 3),
      handling (smallFrame Opcode.delete 98 121) none, handling (smallFrame Opcode.pull 97 0) none]
    ∃ reg reg', exec serveNext [] xs = some reg ∧ exec serveNext [] ys = some reg' ∧
      contentsOf [97] reg = contentsOf [97] reg' ∧
      collect serveNext (responsesOn [97]) [] xs = collect serveNext (responsesOn [97]) [] ys :=
  topics_independent [97] _ _ (by decide +kernel) (by decide +kernel) rfl

end Registry

namespace Broker
open Registry

theorem exec_of_finish {reg : Registry} {lost : Option Nat} (sessions : List Session)
    (ht : reg.getTopic name = some t₀)
    (hf : Topic.finish requestHash lost i fuel t = some (u, a)) :
    ∃ acts, exec step ⟨reg.update name t, sessions⟩ acts = some ⟨reg.update name u, sessions⟩ ∧
      ∃ c, u.calls[i]? = some c ∧ c.pc = .finished a := by
  induction fuel generalizing t with
  | zero => cases hf
  | succ fuel ih =>
    obtain ⟨c, hc, hf⟩ := Option.bind_eq_some_iff.1 hf
    split at hf
    · rename_i hpc
      cases hf
      exact ⟨[], rfl, c, hc, hpc⟩
    · obtain ⟨v, hv, hf⟩ := Option.bind_eq_some_iff.1 hf
      obtain ⟨acts, hr, hfin⟩ := ih hf
      have lift {x : TopicAction} (hx : t.step requestHash x = some v) :
          advanceTopic ⟨reg.update name t, sessions⟩ name x =
            some ⟨reg.update name v, sessions⟩ := by
        rw [advanceTopic, getTopic_update_self ht, Option.bind_some, hx, Option.map_some,
          update_update]
      have one : ∃ x, step ⟨reg.update name t, sessions⟩ x =
          some ⟨reg.update name v, sessions⟩ := by
        cases hn : c.pc with
        | store =>
          rw [hn] at hv
          cases lost with
          | none => exact ⟨.advance name i, lift hv⟩
          | some kept => exact ⟨.failStore name i kept, lift hv⟩
        | _ =>
          rw [hn] at hv
          exact ⟨.advance name i, lift hv⟩
      obtain ⟨x, hx⟩ := one
      exact ⟨x :: acts, exec_cons_some.2 ⟨_, hx, hr⟩, hfin⟩

theorem exec_of_complete {reg : Registry} {lost : Option Nat} {sessions : List Session}
    (session : Session) (opcode : UInt8) (hlt : s < sessions.length)
    (ht : reg.getTopic n = some t) (hu : t.complete requestHash lost s op = some (u, a)) :
    ∃ acts, ((callTopic ⟨reg, sessions⟩ s session opcode n op).bind fun b => exec step b acts) =
      some ⟨reg.update n u, sessions.set s
        { session.send (replyTo opcode a) with state := .receiving }⟩ := by
  obtain ⟨v, hv, hf⟩ := Option.bind_eq_some_iff.1 hu
  obtain ⟨acts, hrun, c, hc, hpc⟩ := exec_of_finish
    (sessions.set s { session with state := .calling opcode n t.calls.length }) ht hf
  have hcall : callTopic ⟨reg, sessions⟩ s session opcode n op = some ⟨reg.update n v,
      sessions.set s { session with state := .calling opcode n t.calls.length }⟩ := by
    rw [callTopic, ht, Option.bind_some, hv, Option.map_some]
    rfl
  refine ⟨acts ++ [.reply s], ?_⟩
  simp only [hcall, Option.bind_some, exec_concat, hrun]
  rw [step, List.getElem?_set_self hlt, Option.bind_some]
  simp only [getTopic_update_self ht, Option.bind_some, hc, hpc, setSession, List.set_set]
  rfl

/-- The handling of a request that is awaited to its end is a run of the server. -/
theorem exec_of_serve {b : Broker} {x : Handling} (hs : b.receiving x.client = some session)
    (hr : Rpc.receive session.input = .request x.frame rest)
    (h : b.registry.serve x = some (reg, r)) :
    ∃ acts, exec step b (.receive x.client x.env :: acts) =
      some ({ b with registry := reg }.setSession x.client
        (({ session with input := rest } : Session).send r)) := by
  obtain ⟨hsess, hst⟩ := receiving_eq_some.1 hs
  have hlt : x.client < b.sessions.length := (List.getElem?_eq_some_iff.1 hsess).1
  obtain ⟨input, state, output⟩ := session
  obtain rfl : state = .receiving := hst
  have hreceive : step b (.receive x.client x.env) =
      b.handle x.client ⟨rest, .receiving, output⟩ x.env x.frame := by
    rw [step, hs, Option.bind_some, hr]
  simp only [exec_cons, hreceive]
  cases hd : handleRequest b.registry x.env x.frame with
  | mk reg₁ d =>
    rw [serve, hd] at h
    rw [handle, hd]
    cases d with
    | respond r =>
      cases h
      exact ⟨[], rfl⟩
    | call n op =>
      obtain ⟨t, ht, h⟩ := Option.bind_eq_some_iff.1 h
      obtain ⟨⟨u, a⟩, hu, he⟩ := Option.map_eq_some_iff.1 h
      cases he
      exact exec_of_complete ⟨rest, .receiving, output⟩ x.frame.opcode hlt ht hu
    | overflow => cases h
    | abort => cases h

end Broker
end Noctua.Rpc
