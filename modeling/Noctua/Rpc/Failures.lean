import Noctua.Rpc.Disk
import Noctua.Rpc.WriteAhead
import Noctua.Topic.Failures

namespace Noctua.Rpc
open Transition Wall Posix
set_option autoImplicit true

def BrokerAction.intact : BrokerAction → BrokerAction
  | .failStore name i _ => .advance name i
  | a => a

namespace Registry
variable {reg reg' : Registry} {t u : Topic}

/-- The same names, with topics that differ in their walls only. -/
def Mirrors (reg reg' : Registry) : Prop :=
  List.Forall₂ (fun x y => x.1 = y.1 ∧ x.2.Mirrors y.2) reg reg'

theorem Mirrors.getTopic (h : Mirrors reg reg') (name : Text) :
    Option.Rel Topic.Mirrors (reg.getTopic name) (reg'.getTopic name) := by
  induction h with
  | nil => exact .none
  | @cons x y reg reg' hxy h ih =>
    obtain ⟨n, t⟩ := x
    obtain ⟨n', u⟩ := y
    obtain ⟨rfl, hm⟩ := hxy
    rw [Registry.getTopic, Registry.getTopic, List.lookup_cons, List.lookup_cons]
    cases name == n with
    | true => exact .some hm
    | false => exact ih

theorem Mirrors.of_getTopic (h : Mirrors reg reg') (ht : reg.getTopic name = some t) :
    ∃ u, reg'.getTopic name = some u ∧ t.Mirrors u := by
  have hrel := h.getTopic name
  rw [ht] at hrel
  cases hu : reg'.getTopic name with
  | none =>
    rw [hu] at hrel
    cases hrel
  | some u =>
    rw [hu] at hrel
    cases hrel with
    | some hm => exact ⟨u, rfl, hm⟩

theorem Mirrors.update (h : Mirrors reg reg') (hm : t.Mirrors u) (name : Text) :
    Mirrors (reg.update name t) (reg'.update name u) := by
  induction h with
  | nil => exact .nil
  | @cons x y reg reg' hxy h ih =>
    simp only [Registry.update, List.map_cons] at ih ⊢
    refine .cons ?_ ih
    rw [← hxy.1]
    split
    · exact ⟨rfl, hm⟩
    · exact hxy

theorem Mirrors.handlePush (h : Mirrors reg reg') (env : HandlerEnv) (f : Frame) :
    Mirrors (handlePush reg env f).1 (handlePush reg' env f).1 ∧
      (handlePush reg' env f).2 = (handlePush reg env f).2 := by
  rw [Rpc.handlePush, Rpc.handlePush]
  split
  · exact ⟨h, rfl⟩
  · rw [getOrCreateTopic, getOrCreateTopic]
    have hrel := h.getTopic f.topicName
    generalize reg.getTopic f.topicName = o, reg'.getTopic f.topicName = o' at hrel
    cases hrel with
    | some hm => exact ⟨h, rfl⟩
    | none =>
      by_cases ho : partitionsCount < invalidTopicId.toNat ∧ env.opens = true
      · simp only [if_pos ho]
        exact ⟨List.rel_append h (.cons ⟨rfl, Topic.mirrors_init _⟩ .nil), trivial⟩
      · simp only [if_neg ho]
        exact ⟨h, trivial⟩

theorem Mirrors.handleRequest (h : Mirrors reg reg') (env : HandlerEnv) (f : Frame) :
    Mirrors (handleRequest reg env f).1 (handleRequest reg' env f).1 ∧
      (handleRequest reg' env f).2 = (handleRequest reg env f).2 := by
  have hpull : handlePull reg' f = handlePull reg f := by
    apply handlePull_congr
    have hrel := h.getTopic f.topicName
    generalize reg.getTopic f.topicName = o, reg'.getTopic f.topicName = o' at hrel
    cases hrel <;> rfl
  have hdelete : handleDelete reg' env f = handleDelete reg env f := by
    rw [handleDelete, handleDelete]
    have hrel := h.getTopic f.topicName
    generalize reg.getTopic f.topicName = o, reg'.getTopic f.topicName = o' at hrel
    cases hrel <;> rfl
  rw [Rpc.handleRequest, Rpc.handleRequest, hpull, hdelete]
  split
  · exact h.handlePush env f
  · split
    · exact ⟨h, rfl⟩
    · split <;> exact ⟨h, rfl⟩

end Registry

namespace Broker
variable {b b' u : Broker} {session : Session}

/-- The clients see no difference, and the topics differ in their walls only. -/
structure Mirrors (b u : Broker) : Prop where
  sessions : u.sessions = b.sessions
  registry : b.registry.Mirrors u.registry

theorem Mirrors.setSession (h : Mirrors b u) (s : Nat) (session : Session) :
    Mirrors (b.setSession s session) (u.setSession s session) :=
  ⟨congrArg (·.set s session) h.sessions, h.registry⟩

theorem Mirrors.setRegistry (h : Mirrors b u) (hr : reg.Mirrors reg') :
    Mirrors { b with registry := reg } { u with registry := reg' } := ⟨h.sessions, hr⟩

theorem Mirrors.callTopic (h : Mirrors b u)
    (hs : b.callTopic s session opcode name op = some b') :
    ∃ u', u.callTopic s session opcode name op = some u' ∧ Mirrors b' u' := by
  obtain ⟨t, ht, hs⟩ := Option.bind_eq_some_iff.1 hs
  obtain ⟨t', hst, rfl⟩ := Option.map_eq_some_iff.1 hs
  obtain ⟨v, hv, hm⟩ := h.registry.of_getTopic ht
  obtain ⟨v', hsv, hm'⟩ := hm.step hst
  refine ⟨_, ?_, (h.setRegistry (h.registry.update hm' name)).setSession s _⟩
  change v.step requestHash (.invoke s op) = some v' at hsv
  simp only [Broker.callTopic, hv, Option.bind_some, hsv, Option.map_some, hm.calls]

theorem Mirrors.handle (h : Mirrors b u) (hs : b.handle s session env f = some b') :
    ∃ u', u.handle s session env f = some u' ∧ Mirrors b' u' := by
  obtain ⟨hreg, hd⟩ := h.registry.handleRequest env f
  rw [Broker.handle] at hs ⊢
  generalize handleRequest b.registry env f = x, handleRequest u.registry env f = y at *
  obtain ⟨reg, d⟩ := x
  obtain ⟨reg', d'⟩ := y
  obtain rfl : d' = d := hd
  cases d' with
  | respond r =>
    cases hs
    exact ⟨_, rfl, (h.setRegistry hreg).setSession s _⟩
  | call name op =>
    exact (h.setRegistry hreg).callTopic hs
  | overflow => cases hs
  | abort => cases hs

theorem Mirrors.advanceTopic (h : Mirrors b u) (hs : b.advanceTopic name a = some b') :
    ∃ u', u.advanceTopic name a.intact = some u' ∧ Mirrors b' u' := by
  obtain ⟨t, ht, hs⟩ := Option.bind_eq_some_iff.1 hs
  obtain ⟨t', hst, rfl⟩ := Option.map_eq_some_iff.1 hs
  obtain ⟨v, hv, hm⟩ := h.registry.of_getTopic ht
  obtain ⟨v', hsv, hm'⟩ := hm.step hst
  refine ⟨_, ?_, h.setRegistry (h.registry.update hm' name)⟩
  simp only [Broker.advanceTopic, hv, Option.bind_some, hsv, Option.map_some]

theorem Mirrors.receive (h : Mirrors b u) (hs : b.step (.receive s env) = some b') :
    ∃ u', u.step (.receive s env) = some u' ∧ Mirrors b' u' := by
  obtain ⟨session, hrecv, hs⟩ := Option.bind_eq_some_iff.1 hs
  have hu : u.receiving s = some session := by
    rw [receiving, h.sessions]
    exact hrecv
  simp only [step, hu, Option.bind_some]
  cases hr : Rpc.receive session.input with
  | request f rest =>
    rw [hr] at hs
    exact h.handle hs
  | _ =>
    rw [hr] at hs
    cases hs
    exact ⟨_, rfl, h.setSession s _⟩

theorem Mirrors.reply (h : Mirrors b u) (hs : b.step (.reply s) = some b') :
    ∃ u', u.step (.reply s) = some u' ∧ Mirrors b' u' := by
  cases serverStep_reply hs with
  | reply hget hc ht hcall hpc =>
    obtain ⟨v, hv, hm⟩ := h.registry.of_getTopic ht
    refine ⟨_, ?_, h.setSession s _⟩
    simp only [step, h.sessions, hget, hc, hv, hm.calls, hcall, hpc, Option.bind_some]

theorem Mirrors.step (h : Mirrors b u) (hs : b.step a = some b') :
    ∃ u', u.step a.intact = some u' ∧ Mirrors b' u' := by
  cases a with
  | connect input =>
    cases hs
    exact ⟨_, rfl, congrArg (· ++ [{ input := input }]) h.sessions, h.registry⟩
  | receive s env => exact h.receive hs
  | advance name i => exact h.advanceTopic hs
  | failStore name i kept => exact h.advanceTopic hs
  | reply s => exact h.reply hs

theorem Mirrors.topicAt (h : Mirrors b u) (name : Text) :
    (b.topicAt name).Mirrors (u.topicAt name) := by
  have hrel := h.registry.getTopic name
  rw [Broker.topicAt, Broker.topicAt]
  generalize b.registry.getTopic name = o, u.registry.getTopic name = o' at hrel
  cases hrel with
  | some hm => exact hm
  | none => exact Topic.mirrors_init _

theorem Mirrors.hasTopic (h : Mirrors b u) (name : Text) :
    u.registry.HasTopic name ↔ b.registry.HasTopic name := by
  have hrel := h.registry.getTopic name
  rw [Registry.HasTopic, Registry.HasTopic]
  generalize b.registry.getTopic name = o, u.registry.getTopic name = o' at hrel ⊢
  cases hrel with
  | some hm => exact iff_of_true (Option.some_ne_none _) (Option.some_ne_none _)
  | none => exact Iff.rfl

theorem Mirrors.ownsFile (h : Mirrors b u) (hn : b.registry.OwnsFile name) :
    u.registry.OwnsFile name where
  hasTopic := (h.hasTopic name).2 hn.hasTopic
  alone m hm ht := hn.alone m hm ((h.hasTopic m).1 ht)

end Broker

namespace DiskBroker
open Broker

/-- A client cannot tell that stores fail: with the same steps and every store made the server
sends the same responses and its partitions hold the same messages. The file of each topic that
shares it with no other is the beginning of the file that it would be, which has all records. -/
theorem failures_unseen {disk : Disk} (hr : exec step ⟨{}, disk⟩ acts = some d) :
    ∃ u, exec step ⟨{}, disk⟩ (acts.map BrokerAction.intact) = some u ∧
      u.broker.sessions = d.broker.sessions ∧
      ∀ name, (u.broker.topicAt name).storage = (d.broker.topicAt name).storage ∧
        (u.broker.topicAt name).wallWriter.failed = false ∧
        (d.broker.registry.OwnsFile name → d.disk (wallFile name) <+: u.disk (wallFile name) ∧
          u.disk (wallFile name) =
            ((u.broker.topicAt name).log.map Wall.WallData.bytes).flatten) := by
  have start : Mirrors {} {} := ⟨rfl, .nil⟩
  obtain ⟨v, hv, hm⟩ := exec_map (fun _ _ _ _ h hs => h.step hs) start (broker_of_exec hr)
  obtain ⟨u, hu, rfl⟩ := exec_of_broker disk hv
  refine ⟨u, hu, hm.sessions, fun name => ?_⟩
  have hname := hm.topicAt name
  refine ⟨hname.storage, hname.stored, fun howns => ?_⟩
  rw [holdsWalls_of_exec hr name howns, holdsWalls_of_exec hu name (hm.ownsFile howns)]
  exact ⟨hname.prefix_file, hname.file⟩

/-- A push of which no byte reaches the file is answered like any other. -/
def answeredUnlogged : List BrokerAction :=
  Audited.lossyRun ++ [.advance [97] 0, .advance [97] 0, .reply 0]

theorem failures_unseen_unlogged : ∃ d u, exec step ⟨{}, fun _ => [1]⟩ answeredUnlogged = some d ∧
    exec step ⟨{}, fun _ => [1]⟩ (answeredUnlogged.map BrokerAction.intact) = some u ∧
      u.broker.sessions = d.broker.sessions ∧
      d.broker.sessions = [⟨[], .receiving, [okResponse Opcode.push]⟩] ∧
        d.disk (wallFile [97]) = [] ∧ (u.disk (wallFile [97])).length = sizeofWallData ∧
          u.disk (wallFile [97]) =
            ((u.broker.topicAt [97]).log.map Wall.WallData.bytes).flatten := by
  have lossy : (exec step ⟨{}, fun _ => [1]⟩ answeredUnlogged).map
      (fun d => (d.broker.sessions, d.disk (wallFile [97]), d.broker.registry.map Prod.fst)) =
        some ([⟨[], .receiving, [okResponse Opcode.push]⟩], [], [[97]]) := by decide +kernel
  have whole : (exec step ⟨{}, fun _ => [1]⟩ (answeredUnlogged.map BrokerAction.intact)).map
      (fun u => (u.disk (wallFile [97])).length) = some sizeofWallData := by decide +kernel
  obtain ⟨d, hd, he⟩ := Option.map_eq_some_iff.1 lossy
  simp only [Prod.mk.injEq] at he
  obtain ⟨hsessions, hfile, hnames⟩ := he
  obtain ⟨u, hu, hs, htopics⟩ := failures_unseen hd
  have howns : d.broker.registry.OwnsFile [97] := Registry.ownsFile_of_names hnames
  rw [hu] at whole
  exact ⟨d, u, hd, hu, hs, hsessions, hfile, Option.some.inj whole, ((htopics [97]).2.2 howns).2⟩

end DiskBroker
end Noctua.Rpc
