import Noctua.Rpc.PartitionRange
import Noctua.Rpc.ServerStep
import Noctua.Wall.Path

namespace Noctua.Rpc
open Transition Wall Posix
set_option autoImplicit true

namespace Registry

def HasTopic (reg : Registry) (name : Text) : Prop := reg.getTopic name ≠ none

instance (reg : Registry) (name : Text) : Decidable (reg.HasTopic name) :=
  match h : reg.getTopic name with
  | some _ => isTrue (by rw [HasTopic, h]; exact Option.some_ne_none _)
  | none => isFalse fun hn => hn h

/-- Two topics write to two files, and every wall file lies directly in "/tmp". -/
structure PrivateWalls (reg : Registry) : Prop where
  distinct : ∀ n m, n ≠ m → reg.HasTopic n → reg.HasTopic m → wallFile n ≠ wallFile m
  confined : ∀ n, reg.HasTopic n → ∃ c, wallFile n = [tmp, c]

variable {reg : Registry} {name other : Text} {t u : Topic}

theorem hasTopic_of_getTopic (ht : reg.getTopic name = some t) : reg.HasTopic name := by
  rw [HasTopic, ht]
  exact Option.some_ne_none t

theorem hasTopic_append (hn : reg.getTopic name = none) :
    HasTopic (reg ++ [(name, t)]) other ↔ reg.HasTopic other ∨ other = name := by
  by_cases hne : other = name
  · subst hne
    rw [HasTopic, getTopic_append_self hn]
    exact iff_of_true (Option.some_ne_none _) (.inr rfl)
  · rw [HasTopic, getTopic_append_ne hne]
    exact ⟨.inl, fun h => h.resolve_right hne⟩

theorem hasTopic_update (ht : reg.getTopic name = some t) :
    (reg.update name u).HasTopic other ↔ reg.HasTopic other := by
  by_cases hne : other = name
  · subst hne
    rw [HasTopic, HasTopic, getTopic_update_self ht, ht]
    exact iff_of_true (Option.some_ne_none _) (Option.some_ne_none _)
  · rw [HasTopic, HasTopic, getTopic_update_ne hne]

end Registry

/-- An action of the server with the file system as it is then. -/
structure OsAction where
  fs : FileSystem
  action : BrokerAction

namespace Broker

/-- Whether the wall file of the topic that a session's next request names can be opened. -/
def opensWall (b : Broker) (fs : FileSystem) (s : Nat) : Bool :=
  match b.frameOf s with
  | some f => decide (fs.Opens (openedPath f.topicName))
  | none => false

/-- The file system decides what the handler meets. -/
def onFileSystem (b : Broker) (x : OsAction) : BrokerAction :=
  match x.action with
  | .receive s env => .receive s { env with opens := b.opensWall x.fs s }
  | a => a

def osStep (b : Broker) (x : OsAction) : Option Broker := b.step (b.onFileSystem x)

/-- The registry that an action leaves. The handler of a request has extended it also where it
then leaves its buffer, or where the partition of its call does not exist. -/
def leaves (b : Broker) : BrokerAction → Registry
  | .receive s env =>
    match b.frameOf s with
    | some f => (handleRequest b.registry env f).1
    | none => b.registry
  | _ => b.registry

def Creates (b : Broker) (x : OsAction) (name : Text) : Prop :=
  ¬ b.registry.HasTopic name ∧ (b.leaves (b.onFileSystem x)).HasTopic name

/-- The name of a topic to be created leads back to "/tmp" before its last slash, and goes on after
it as no name of another topic does. -/
def NamesOwnFile (b : Broker) (x : OsAction) : Prop :=
  ∀ n, b.Creates x n → LeadsBack n ∧ ∀ m, b.registry.HasTopic m → base m ≠ base n

/-- The wall files are private in every state of the run and in every registry that a step of it
leaves, the last one attempted included. -/
def WallsPrivate (acts : List OsAction) : Prop :=
  Throughout osStep (fun b => b.registry.PrivateWalls) {} acts ∧
    AllSteps osStep (fun b x => (b.leaves (b.onFileSystem x)).PrivateWalls) {} acts

variable {b b' : Broker} {a : BrokerAction} {x : OsAction} {name : Text}

theorem frameOf_eq (hs : b.receiving s = some session)
    (hr : Rpc.receive session.input = .request f rest) : b.frameOf s = some f := by
  rw [frameOf, hs, Option.bind_some, hr]

theorem leaves_cases (b : Broker) (x : OsAction) :
    b.leaves (b.onFileSystem x) = b.registry ∨
      ∃ n, b.registry.getTopic n = none ∧ IsName (base n) ∧ b.leaves (b.onFileSystem x) =
        b.registry ++ [(n, Topic.init Registry.partitionsCount)] := by
  obtain ⟨fs, a⟩ := x
  cases a with
  | connect | advance | failStore | reply => exact .inl rfl
  | receive s env =>
    simp only [onFileSystem, leaves]
    cases hf : b.frameOf s with
    | none => exact .inl rfl
    | some f =>
      rcases handleRequest_registry b.registry { env with opens := b.opensWall fs s } f with
        h | ⟨hn, ho, h⟩
      · exact .inl h
      · refine .inr ⟨f.topicName, hn, ?_, h⟩
        simp only [opensWall, hf] at ho
        exact isName_base (of_decide_eq_true ho)

theorem creates_cases (b : Broker) (x : OsAction) :
    (∀ m, ¬ b.Creates x m) ∨ ∃ n, IsName (base n) ∧ ∀ m, b.Creates x m ↔ m = n := by
  rcases leaves_cases b x with h | ⟨n, hn, hname, h⟩
  · apply Or.inl
    rintro m ⟨hm, hm'⟩
    rw [h] at hm'
    exact hm hm'
  · refine .inr ⟨n, hname, fun m => ?_⟩
    rw [Creates, h, Registry.hasTopic_append hn]
    constructor
    · rintro ⟨hm, hm'⟩
      exact hm'.resolve_left hm
    · rintro rfl
      exact ⟨fun hm => hm hn, .inr rfl⟩

theorem hasTopic_leaves : (b.leaves (b.onFileSystem x)).HasTopic name ↔
    b.registry.HasTopic name ∨ b.Creates x name := by
  constructor
  · intro h
    by_cases hn : b.registry.HasTopic name
    · exact .inl hn
    · exact .inr ⟨hn, h⟩
  · rintro (hn | hc)
    · rcases leaves_cases b x with h | ⟨n, hnone, -, h⟩
      · rw [h]
        exact hn
      · rw [h, Registry.hasTopic_append hnone]
        exact .inl hn
    · exact hc.2

theorem ServerStep.hasTopic (h : ServerStep b a b') :
    b'.registry.HasTopic name ↔ (b.leaves a).HasTopic name := by
  cases h with
  | connect | reply => exact Iff.rfl
  | closed hs hr | badMagic hs hr | tooLarge hs hr =>
    rw [leaves, frameOf, hs, Option.bind_some, hr]
    exact Iff.rfl
  | answered hs hr hd =>
    rw [leaves, frameOf_eq hs hr]
    dsimp only
    rw [hd]
    exact Iff.rfl
  | called hs hr hd ht hu =>
    rw [leaves, frameOf_eq hs hr]
    dsimp only
    rw [hd]
    exact Registry.hasTopic_update ht
  | advance ht hu | failStore ht hu => exact Registry.hasTopic_update ht

theorem hasTopic_osStep (hs : b.osStep x = some b') :
    b'.registry.HasTopic name ↔ b.registry.HasTopic name ∨ b.Creates x name :=
  (step_server hs).hasTopic.trans hasTopic_leaves

end Broker

namespace Registry
variable {reg reg' : Registry}

/-- What the names in a registry are like after steps that all name their own file. -/
structure OwnFiles (reg : Registry) : Prop where
  named : ∀ n, reg.HasTopic n → IsName (base n)
  leadsBack : ∀ n, reg.HasTopic n → LeadsBack n
  distinct : ∀ n m, n ≠ m → reg.HasTopic n → reg.HasTopic m → base n ≠ base m

theorem ownFiles_nil : OwnFiles [] where
  named _ hn := (hn rfl).elim
  leadsBack _ hn := (hn rfl).elim
  distinct _ _ _ hn := (hn rfl).elim

theorem OwnFiles.congr (h : OwnFiles reg) (he : ∀ n, reg'.HasTopic n ↔ reg.HasTopic n) :
    OwnFiles reg' where
  named n hn := h.named n ((he n).1 hn)
  leadsBack n hn := h.leadsBack n ((he n).1 hn)
  distinct n m hne hn hm := h.distinct n m hne ((he n).1 hn) ((he m).1 hm)

theorem OwnFiles.privateWalls (h : OwnFiles reg) : reg.PrivateWalls where
  distinct := by
    intro n m hne hn hm he
    rw [wallFile_leadsBack (h.named n hn) (h.leadsBack n hn),
      wallFile_leadsBack (h.named m hm) (h.leadsBack m hm)] at he
    exact h.distinct n m hne hn hm (List.cons.inj (List.cons.inj he).2).1
  confined := by
    intro n hn
    exact ⟨base n, wallFile_leadsBack (h.named n hn) (h.leadsBack n hn)⟩

end Registry

namespace Broker
variable {b b' : Broker} {x : OsAction} {name : Text}

theorem ownFiles_leaves (h : b.registry.OwnFiles) (hx : NamesOwnFile b x) :
    (b.leaves (b.onFileSystem x)).OwnFiles := by
  constructor
  case named =>
    intro n hn
    rcases hasTopic_leaves.1 hn with hn | hc
    · exact h.named n hn
    · rcases creates_cases b x with hnone | ⟨m, hm, hu⟩
      · exact (hnone n hc).elim
      · exact (hu n).1 hc ▸ hm
  case leadsBack =>
    intro n hn
    rcases hasTopic_leaves.1 hn with hn | hc
    · exact h.leadsBack n hn
    · exact (hx n hc).1
  case distinct =>
    intro n m hne hn hm
    rcases hasTopic_leaves.1 hn with hn | hcn <;> rcases hasTopic_leaves.1 hm with hm | hcm
    · exact h.distinct n m hne hn hm
    · exact (hx m hcm).2 n hn
    · exact ((hx n hcn).2 m hm).symm
    · rcases creates_cases b x with hnone | ⟨k, -, hu⟩
      · exact (hnone n hcn).elim
      · exact (hne (((hu n).1 hcn).trans ((hu m).1 hcm).symm)).elim

theorem ownFiles_osStep (h : b.registry.OwnFiles) (hx : NamesOwnFile b x)
    (hs : b.osStep x = some b') : b'.registry.OwnFiles :=
  (ownFiles_leaves h hx).congr fun _ => (step_server hs).hasTopic

theorem namesOwnFile_of_private (h : b.registry.OwnFiles)
    (hp : (b.leaves (b.onFileSystem x)).PrivateWalls) : NamesOwnFile b x := by
  intro n hc
  have hname : IsName (base n) := by
    rcases creates_cases b x with hnone | ⟨k, hk, hu⟩
    · exact (hnone n hc).elim
    · exact (hu n).1 hc ▸ hk
  obtain ⟨c, hw⟩ := hp.confined n hc.2
  have hl := leadsBack_of_wallFile hname hw
  refine ⟨hl, fun m hm he => ?_⟩
  have hne : m ≠ n := by
    rintro rfl
    exact hc.1 hm
  apply hp.distinct m n hne (hasTopic_leaves.2 (.inl hm)) hc.2
  rw [wallFile_leadsBack (h.named m hm) (h.leadsBack m hm), wallFile_leadsBack hname hl, he]

/-- The name of a topic to be created has neither a NUL nor a slash. -/
def NamesPlainly (b : Broker) (x : OsAction) : Prop :=
  ∀ n, b.Creates x n → 0 ∉ n ∧ slash ∉ n

theorem NamesPlainly.namesOwnFile (h : NamesPlainly b x)
    (hb : ∀ n, b.registry.HasTopic n → base n = n) : NamesOwnFile b x := by
  intro n hc
  obtain ⟨hn, hs⟩ := h n hc
  refine ⟨leadsBack_plain hn hs, fun m hm he => hc.1 ?_⟩
  rw [hb m hm, base_plain hn hs] at he
  exact he ▸ hm

theorem base_kept (h : NamesPlainly b x) (hb : ∀ n, b.registry.HasTopic n → base n = n)
    (hs : b.osStep x = some b') (hn : b'.registry.HasTopic name) : base name = name := by
  rcases (hasTopic_osStep hs).1 hn with hn | hc
  · exact hb name hn
  · exact base_plain (h name hc).1 (h name hc).2

theorem wallsPrivate_of_ownFiles (h : AllSteps osStep NamesOwnFile {} acts) :
    WallsPrivate acts := by
  constructor
  · exact (throughout_of_allSteps (fun _ _ _ => ownFiles_osStep) Registry.ownFiles_nil h).mono
      fun _ hb => hb.privateWalls
  · exact h.imp (fun _ _ _ => ownFiles_osStep)
      (fun _ _ hb hx => (ownFiles_leaves hb hx).privateWalls) Registry.ownFiles_nil

/-- Clients that keep to plain names keep the walls private. -/
theorem wallsPrivate_of_plain (h : AllSteps osStep NamesPlainly {} acts) :
    WallsPrivate acts := by
  apply wallsPrivate_of_ownFiles
  apply h.imp (I := fun b => ∀ n, b.registry.HasTopic n → base n = n)
  · intro b x b' hb hx hs n hn
    exact base_kept hx hb hs hn
  · intro b x hb hx
    exact hx.namesOwnFile hb
  · intro n hn
    exact (hn rfl).elim

/-- For any clients, schedule and file system: the wall files are private to their topics
throughout, exactly when every name of a new topic leads to a file of its own in "/tmp". -/
theorem private_walls_iff (acts : List OsAction) :
    WallsPrivate acts ↔ AllSteps osStep NamesOwnFile {} acts := by
  constructor
  · rintro ⟨-, h⟩
    exact h.imp (fun _ _ _ hb hp => ownFiles_osStep hb (namesOwnFile_of_private hb hp))
      (fun _ _ hb hp => namesOwnFile_of_private hb hp) Registry.ownFiles_nil
  · exact wallsPrivate_of_ownFiles

def tmpOnly : FileSystem where
  isDirectory dir := dir == [] || dir == [tmp]
  refuses _ := false
  root := rfl
  parent := by
    intro dir hd
    rcases Bool.or_eq_true_iff.1 hd with hd | hd <;> rw [beq_iff_eq.1 hd] <;> rfl

/-- The frames of a PUSH of no text to the topics "a" and "/a". -/
def slashedRun : List OsAction :=
  [.connect [0x55, 0x43, 0x4F, 0x4E, 1, 0, 1, 0, 0, 0, 0, 0, 97],
    .receive 0 ⟨false, 0, fun _ => 0, .replicate 5 0⟩,
    .connect [0x55, 0x43, 0x4F, 0x4E, 1, 0, 2, 0, 0, 0, 0, 0, 47, 97],
    .receive 1 ⟨false, 0, fun _ => 0, .replicate 5 0⟩].map (OsAction.mk tmpOnly)

theorem private_walls_fails : ¬ ∀ acts, WallsPrivate acts := by
  intro h
  have hrun : (exec osStep {} slashedRun).map (fun b =>
      decide (b.registry.HasTopic [97] ∧ b.registry.HasTopic [47, 97])) = some true := by
    decide +kernel
  obtain ⟨b, hr, hb⟩ := Option.map_eq_some_iff.1 hrun
  obtain ⟨ha, hslash⟩ := of_decide_eq_true hb
  exact ((h slashedRun).1.last hr).distinct [97] [47, 97] (by decide) ha hslash (by decide +kernel)

end Broker
end Noctua.Rpc
