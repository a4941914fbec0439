import Noctua.Library.Disk
import Noctua.Rpc.TopicRuns
import Noctua.Rpc.WallFiles
import Noctua.Topic.Logged

namespace Noctua.Rpc
open Transition Wall Posix
set_option autoImplicit true

/-- The server with the files that the walls of its topics are written to. -/
structure DiskBroker where
  broker : Broker := {}
  disk : Disk

/-- A topic with a file of its own. -/
structure Registry.OwnsFile (reg : Registry) (name : Text) : Prop where
  hasTopic : reg.HasTopic name
  alone : ∀ m, m ≠ name → reg.HasTopic m → wallFile m ≠ wallFile name

theorem Registry.ownsFile_of_names {reg : Registry} (h : reg.map Prod.fst = [name]) :
    reg.OwnsFile name := by
  obtain ⟨⟨n, t⟩, rfl, rfl⟩ := List.map_eq_singleton_iff.1 h
  refine ⟨hasTopic_of_getTopic List.lookup_cons_self, fun m hm ht => (ht ?_).elim⟩
  exact (List.lookup_cons ..).trans (by rw [beq_false_of_ne hm]; rfl)

namespace Broker

def wallWriter (b : Broker) (name : Text) : WallWriter := (b.topicAt name).wallWriter

/-- The name of the topic that a step creates. -/
def created (b b' : Broker) (s : Nat) : Option Text :=
  ((b.frameOf s).map Frame.topicName).filter fun n =>
    b'.registry.HasTopic n ∧ ¬ b.registry.HasTopic n

/-- What a step does to the files. The stream of a new topic truncates the file that its name
leads to; after that a stream writes where it stands, wherever the file ends. -/
def writesTo (b b' : Broker) (disk : Disk) : BrokerAction → Disk
  | .receive s _ =>
    match b.created b' s with
    | some name => disk.truncate (wallFile name)
    | none => disk
  | .advance name _ | .failStore name _ _ =>
    let pos := (b.wallWriter name).file.length
    disk.write (wallFile name) pos ((b'.wallWriter name).file.drop pos)
  | .connect _ | .reply _ => disk

end Broker

namespace DiskBroker

def step (d : DiskBroker) (a : BrokerAction) : Option DiskBroker :=
  (d.broker.step a).map fun b => ⟨b, d.broker.writesTo b d.disk a⟩

end DiskBroker

namespace Broker
variable {b b' : Broker} {a : BrokerAction} {name : Text}

theorem wallWriter_grows (ht : TopicStep a name (b.registry.getTopic name)
    (b'.registry.getTopic name)) : (b.wallWriter name).file <+: (b'.wallWriter name).file := by
  rw [wallWriter, wallWriter, topicAt, topicAt]
  generalize b.registry.getTopic name = o, b'.registry.getTopic name = o' at ht ⊢
  cases ht with
  | same | invoked | created => exact List.prefix_refl _
  | @moved _ _ _ _ e =>
    simp only [Option.getD_some, Topic.advanced_wallWriter]
    cases e with
    | store d => exact WallWriter.prefix_store ..
    | failStore d kept => exact WallWriter.prefix_storeFails ..
    | _ => exact List.prefix_refl _

theorem wallWriter_kept (ht : TopicStep a name (b.registry.getTopic name)
    (b'.registry.getTopic name)) (hm : ∀ i c, ¬ Moves a name i c) :
    b'.wallWriter name = b.wallWriter name := by
  rw [wallWriter, wallWriter, topicAt, topicAt]
  generalize b.registry.getTopic name = o, b'.registry.getTopic name = o' at ht ⊢
  cases ht with
  | same | invoked | created => rfl
  | moved ha => exact (hm _ _ ha).elim

theorem created_eq_some : b.created b' s = some name ↔
    (∃ f, b.frameOf s = some f ∧ f.topicName = name) ∧ b'.registry.HasTopic name ∧
      ¬ b.registry.HasTopic name := by
  rw [created, Option.filter_eq_some_iff, Option.map_eq_some_iff, decide_eq_true_iff]

theorem created_of_new (h : ServerStep b (.receive s env) b') (hn : ¬ b.registry.HasTopic name)
    (hn' : b'.registry.HasTopic name) : b.created b' s = some name := by
  refine created_eq_some.2 ⟨?_, hn', hn⟩
  rw [h.hasTopic, leaves] at hn'
  cases hf : b.frameOf s with
  | none =>
    rw [hf] at hn'
    exact (hn hn').elim
  | some f =>
    rw [hf] at hn'
    dsimp only at hn'
    rcases handleRequest_registry b.registry env f with he | ⟨hnone, -, he⟩
    · rw [he] at hn'
      exact (hn hn').elim
    · rw [he, Registry.hasTopic_append hnone] at hn'
      exact ⟨f, rfl, (hn'.resolve_left hn).symm⟩

theorem wallWriter_absent (hn : ¬ b.registry.HasTopic name) : b.wallWriter name = {} := by
  rw [wallWriter, topicAt, not_not.1 hn]
  rfl

theorem hasTopic_step (h : ServerStep b a b') (hn : b.registry.HasTopic name) :
    b'.registry.HasTopic name := by
  have ht := h.topic name
  rw [Registry.HasTopic] at hn ⊢
  generalize b.registry.getTopic name = o, b'.registry.getTopic name = o' at ht hn ⊢
  cases ht with
  | same => exact hn
  | created => exact (hn rfl).elim
  | invoked | moved => exact Option.some_ne_none _

theorem ServerStep.advance_hasTopic (h : ServerStep b (.advance name i) b') :
    b.registry.HasTopic name := by
  cases h with
  | advance ht => exact Registry.hasTopic_of_getTopic ht

theorem ServerStep.failStore_hasTopic (h : ServerStep b (.failStore name i kept) b') :
    b.registry.HasTopic name := by
  cases h with
  | failStore ht => exact Registry.hasTopic_of_getTopic ht

end Broker

namespace DiskBroker
open Broker
variable {d d' : DiskBroker} {name : Text}

theorem step_eq_some : d.step a = some d' ↔ d.broker.step a = some d'.broker ∧
    d'.disk = d.broker.writesTo d'.broker d.disk a := by
  rw [step, Option.map_eq_some_iff]
  constructor
  · rintro ⟨b, hs, rfl⟩
    exact ⟨hs, rfl⟩
  · rintro ⟨hs, hd⟩
    exact ⟨d'.broker, hs, by rw [← hd]⟩

/-- A file of its own holds what the writer of its topic has written. -/
def HoldsWalls (d : DiskBroker) : Prop :=
  ∀ name, d.broker.registry.OwnsFile name →
    d.disk (wallFile name) = (d.broker.wallWriter name).file

theorem HoldsWalls.receive (h : HoldsWalls d) (hs : d.step (.receive s env) = some d') :
    HoldsWalls d' := by
  obtain ⟨hs, hdisk⟩ := step_eq_some.1 hs
  have hserver := step_server hs
  intro name hn
  have hkept : d'.broker.wallWriter name = d.broker.wallWriter name := by
    apply wallWriter_kept (hserver.topic name)
    rintro i c (hm | ⟨-, kept, hm⟩) <;> cases hm
  rw [hdisk, writesTo, hkept]
  by_cases hold : d.broker.registry.HasTopic name
  · have howns : d.broker.registry.OwnsFile name :=
      ⟨hold, fun m hm ht => hn.alone m hm (hasTopic_step hserver ht)⟩
    rw [← h name howns]
    cases hc : d.broker.created d'.broker s with
    | none => rfl
    | some n =>
      obtain ⟨-, hn', hnew⟩ := created_eq_some.1 hc
      apply Disk.truncate_ne
      apply (hn.alone n ?_ hn').symm
      rintro rfl
      exact hnew hold
  · rw [created_of_new hserver hold hn.hasTopic, wallWriter_absent hold]
    exact Disk.truncate_self

theorem HoldsWalls.call (h : HoldsWalls d) (hs : d.step a = some d')
    (ha : (∃ i, a = .advance n i) ∨ ∃ i kept, a = .failStore n i kept) : HoldsWalls d' := by
  obtain ⟨hs, hdisk⟩ := step_eq_some.1 hs
  have hserver := step_server hs
  have hwrites : d'.disk = d.disk.write (wallFile n) (d.broker.wallWriter n).file.length
      ((d'.broker.wallWriter n).file.drop (d.broker.wallWriter n).file.length) := by
    rcases ha with ⟨i, rfl⟩ | ⟨i, kept, rfl⟩ <;> exact hdisk
  have hsame {m : Text} : d'.broker.registry.HasTopic m ↔ d.broker.registry.HasTopic m := by
    rcases ha with ⟨i, rfl⟩ | ⟨i, kept, rfl⟩ <;> exact hserver.hasTopic
  have hname : d.broker.registry.HasTopic n := by
    rcases ha with ⟨i, rfl⟩ | ⟨i, kept, rfl⟩
    · exact hserver.advance_hasTopic
    · exact hserver.failStore_hasTopic
  intro name hn
  have howns : d.broker.registry.OwnsFile name :=
    ⟨hsame.1 hn.hasTopic, fun m hm ht => hn.alone m hm (hsame.2 ht)⟩
  rw [hwrites]
  by_cases hne : name = n
  · subst hne
    rw [Disk.write_end (h name howns)]
    exact (List.prefix_iff_eq_append.1 (wallWriter_grows (hserver.topic name)))
  · have hother : d'.broker.wallWriter name = d.broker.wallWriter name := by
      apply wallWriter_kept (hserver.topic name)
      rintro i c hm
      rcases ha with ⟨j, rfl⟩ | ⟨j, kept, rfl⟩ <;> rcases hm with hm | ⟨-, _, hm⟩ <;> cases hm <;>
        exact hne rfl
    rw [hother, ← h name howns]
    exact Disk.write_ne (howns.alone n (Ne.symm hne) hname).symm

theorem HoldsWalls.step (h : HoldsWalls d) (hs : d.step a = some d') : HoldsWalls d' := by
  cases a with
  | receive s env => exact h.receive hs
  | advance n i => exact h.call hs (.inl ⟨i, rfl⟩)
  | failStore n i kept => exact h.call hs (.inr ⟨i, kept, rfl⟩)
  | connect | reply =>
    obtain ⟨hs, hdisk⟩ := step_eq_some.1 hs
    have hreg : d'.broker.registry = d.broker.registry := by
      generalize d'.broker = b' at hs
      cases step_server hs
      rfl
    intro name hn
    rw [hreg] at hn
    rw [hdisk, wallWriter, topicAt, hreg]
    exact h name hn

/-- In every run, whatever was on the disk before. -/
theorem holdsWalls_of_exec {disk : Disk} (hr : exec step ⟨{}, disk⟩ acts = some d) :
    HoldsWalls d := by
  apply exec_invariant (fun _ _ _ h hs => h.step hs) ?_ hr
  intro name hn
  exact (hn.hasTopic rfl).elim

theorem broker_of_exec (hr : exec step d acts = some d') :
    exec Broker.step d.broker acts = some d'.broker := by
  obtain ⟨b, hb, hR⟩ := exec_map (R := fun d b => d.broker = b) (f := id)
    (fun d b a d' hR hs => ⟨d'.broker, hR ▸ (step_eq_some.1 hs).1, rfl⟩) rfl hr
  rw [List.map_id] at hb
  exact hR ▸ hb

theorem exec_of_broker (disk : Disk) (hr : exec Broker.step b acts = some b') :
    ∃ d, exec step ⟨b, disk⟩ acts = some d ∧ d.broker = b' := by
  have start : (⟨b, disk⟩ : DiskBroker).broker = b := rfl
  have keep (b : Broker) (d : DiskBroker) (a : BrokerAction) (b' : Broker) (hR : d.broker = b)
      (hs : b.step a = some b') : ∃ d', step d (id a) = some d' ∧ d'.broker = b' :=
    ⟨⟨b', d.broker.writesTo b' d.disk a⟩, step_eq_some.2 ⟨hR ▸ hs, rfl⟩, rfl⟩
  obtain ⟨d, hd, hR⟩ := exec_map (R := fun b (d : DiskBroker) => d.broker = b) keep start hr
  rw [List.map_id] at hd
  exact ⟨d, hd, hR⟩

end DiskBroker
end Noctua.Rpc
