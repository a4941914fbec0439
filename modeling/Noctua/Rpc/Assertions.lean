import Noctua.Rpc.WallFiles

namespace Noctua.Rpc
open Transition Wall Posix
set_option autoImplicit true

/-- A check fails in the constructors of a new topic, or at the start of the call of a topic. -/
def Dispatch.FailsKassert : Dispatch → Prop
  | .abort => True
  | .call _ op => op.asserts = false
  | .respond _ | .overflow => False

section
variable {reg : Registry} {env : HandlerEnv} {f : Frame}

theorem getOrCreateTopic_eq_none {opens : Bool} {name : Text} :
    reg.getOrCreateTopic opens name = none ↔ reg.getTopic name = none ∧ opens = false := by
  rw [Registry.getOrCreateTopic]
  cases reg.getTopic name with
  | some t => simp
  | none => cases opens <;> simp [Registry.partitionsCount, invalidTopicId]

theorem callWithRequest_push_asserts : ¬ (callWithRequest env f .push).FailsKassert := by
  rcases callWithRequest_cases env f .push with h | ⟨r, -, h⟩ <;> rw [h]
  · exact id
  · exact Bool.noConfusion

theorem callWithRequest_remove_asserts (hid : f.partitionId ≠ invalidTopicId) :
    ¬ (callWithRequest env f .remove).FailsKassert := by
  rcases callWithRequest_cases env f .remove with h | ⟨r, hr, h⟩ <;> rw [h]
  · exact id
  · simp only [Dispatch.FailsKassert, Operation.asserts, hr, bne_eq_false_iff_eq]
    exact hid

theorem handlePush_asserts : (handlePush reg env f).2.FailsKassert ↔
    f.topicName ≠ [] ∧ reg.getTopic f.topicName = none ∧ env.opens = false := by
  rw [handlePush]
  split
  · rename_i hn
    exact iff_of_false id fun h => h.1 hn
  · rename_i hn
    rw [← getOrCreateTopic_eq_none]
    split
    · rename_i hr
      exact iff_of_true trivial ⟨hn, hr⟩
    · rename_i hr
      exact iff_of_false callWithRequest_push_asserts fun h => by rw [hr] at h; cases h.2

theorem handlePull_asserts : ¬ (handlePull reg f).FailsKassert := by
  rw [handlePull]
  split
  · exact id
  · split
    · exact id
    · split
      · exact id
      · rename_i hid
        split
        · exact id
        · simp only [Dispatch.FailsKassert, Operation.asserts, bne_eq_false_iff_eq]
          exact hid

theorem handleDelete_asserts : ¬ (handleDelete reg env f).FailsKassert := by
  rw [handleDelete]
  split
  · exact id
  · split
    · exact id
    · split
      · exact id
      · rename_i hid
        exact callWithRequest_remove_asserts hid

/-- Of the checks that a request can reach, the one on the wall file of a new topic may fail. -/
theorem handleRequest_asserts : (handleRequest reg env f).2.FailsKassert ↔
    f.opcode = Opcode.push ∧ f.topicName ≠ [] ∧ reg.getTopic f.topicName = none ∧
      env.opens = false := by
  rw [handleRequest]
  split
  · rename_i hop
    rw [handlePush_asserts]
    exact (and_iff_right hop).symm
  · rename_i hop
    refine iff_of_false ?_ fun h => hop h.1
    split
    · exact handlePull_asserts
    · split
      · exact handleDelete_asserts
      · exact id

end

namespace Broker
variable {b : Broker} {x : OsAction}

def FailsKassert (b : Broker) : BrokerAction → Prop
  | .receive s env => ∃ f, b.frameOf s = some f ∧ (handleRequest b.registry env f).2.FailsKassert
  | _ => False

def AssertionsHold (b : Broker) (x : OsAction) : Prop := ¬ b.FailsKassert (b.onFileSystem x)

/-- A PUSH to a topic that is not there yet names a file in "/tmp" that can be opened. -/
def NamesOpenableFile (b : Broker) (x : OsAction) : Prop :=
  match x.action with
  | .receive s _ => ∀ f, b.frameOf s = some f → f.opcode = Opcode.push → f.topicName ≠ [] →
      ¬ b.registry.HasTopic f.topicName → x.fs.Opens (openedPath f.topicName)
  | _ => True

theorem assertionsHold_iff (b : Broker) (x : OsAction) :
    AssertionsHold b x ↔ NamesOpenableFile b x := by
  obtain ⟨fs, a⟩ := x
  cases a with
  | connect | advance | failStore | reply => exact iff_of_true id trivial
  | receive s env =>
    have hopens {f : Frame} (hf : b.frameOf s = some f) :
        b.opensWall fs s = false ↔ ¬ fs.Opens (openedPath f.topicName) := by
      rw [opensWall, hf]
      exact decide_eq_false_iff_not
    constructor
    · intro h f hf hop hn hnone
      by_contra ho
      exact h ⟨f, hf, handleRequest_asserts.2 ⟨hop, hn, not_not.1 hnone, (hopens hf).2 ho⟩⟩
    · rintro h ⟨f, hf, hfails⟩
      obtain ⟨hop, hn, hnone, ho⟩ := handleRequest_asserts.1 hfails
      exact (hopens hf).1 ho (h f hf hop hn (not_not.2 hnone))

/-- For any clients, schedule and file system: no check fails, exactly when every PUSH to a new
topic names a file that can be opened. -/
theorem never_aborts_iff (acts : List OsAction) :
    AllSteps osStep AssertionsHold {} acts ↔ AllSteps osStep NamesOpenableFile {} acts :=
  allSteps_congr (I := fun _ => True) (fun _ _ _ _ _ => trivial)
    (fun b x _ => assertionsHold_iff b x) trivial

/-- A PUSH of no text to the topic ".". -/
theorem never_aborts_fails : ¬ ∀ acts, AllSteps osStep AssertionsHold {} acts := by
  intro h
  have hx := (h (([.connect [0x55, 0x43, 0x4F, 0x4E, 1, 0, 1, 0, 0, 0, 0, 0, 46],
    .receive 0 ⟨false, 0, fun _ => 0, .replicate 5 0⟩].map (OsAction.mk tmpOnly)))).2 _ rfl
  apply hx.1
  refine ⟨⟨1, 0, [46], [], by decide⟩, by decide +kernel, handleRequest_asserts.2 ?_⟩
  exact ⟨rfl, by decide, rfl, by decide +kernel⟩

end Broker
end Noctua.Rpc
