import Noctua.Rpc.Broker
import Noctua.Topic.Coherent

namespace Noctua.Rpc
open Transition
set_option autoImplicit true

namespace Broker
variable {b b' : Broker} {env : HandlerEnv} {f : Frame} {t : Topic} {reg : Registry}

def frameOf (b : Broker) (s : Nat) : Option Frame :=
  (b.receiving s).bind fun session =>
    match Rpc.receive session.input with
    | .request f _ => some f
    | _ => none

/-- A topic is called with an index in range only, and a request with an explicit id that names
no partition of its topic is answered with an error. -/
def ServesInRange (f : Frame) (reg : Registry) (d : Dispatch) : Prop :=
  (∀ name op t, d = .call name op → reg.getTopic name = some t →
    (op.partitionIdx requestHash t.storage.length).toNat < t.storage.length) ∧
  ∀ t, reg.getTopic f.topicName = some t → f.partitionId ≠ invalidTopicId →
    t.storage.length ≤ f.partitionId.toNat → ∃ r, d = .respond r ∧ r.errorCode ≠ .ok

def AccessesInRange (b : Broker) : BrokerAction → Prop
  | .receive s env => ∀ f, b.frameOf s = some f →
      ServesInRange f (handleRequest b.registry env f).1 (handleRequest b.registry env f).2
  | .advance name call | .failStore name call _ => ∀ t c, b.registry.getTopic name = some t →
      t.calls[call]? = some c → c.partition.toNat < t.storage.length
  | _ => True

/-- The id that the request carries is one that its handler can serve. -/
def NamesServedPartition (reg : Registry) (env : HandlerEnv) (f : Frame) : Prop :=
  f.topicName ≠ [] →
    (f.opcode = Opcode.push → reg.getTopic f.topicName ≠ none ∨ env.opens = true →
      f.partitionId = 0 ∨ f.partitionId = invalidTopicId) ∧
    (f.opcode = Opcode.pull → reg.getTopic f.topicName ≠ none →
      f.partitionId ≠ 1 ∧ f.partitionId ≠ 2) ∧
    (f.opcode = Opcode.delete → reg.getTopic f.topicName ≠ none →
      f.partitionId = 0 ∨ f.partitionId = invalidTopicId)

def ServesNamedPartitions (b : Broker) : BrokerAction → Prop
  | .receive s env => ∀ f, b.frameOf s = some f → NamesServedPartition b.registry env f
  | _ => True

/-- What every topic of the server is like: the registry makes no other. -/
def OnePartition (t : Topic) : Prop := t.storage.length = 1 ∧ t.Coherent

theorem onePartition_init : OnePartition (Topic.init Registry.partitionsCount) :=
  ⟨rfl, Topic.coherent_init _⟩

theorem OnePartition.step (h : OnePartition t) (hs : t.step requestHash a = some u) :
    OnePartition u := ⟨(Topic.storage_length_step hs).trans h.1, h.2.step hs⟩

theorem toNat_lt_one {p : UInt16} : p.toNat < 1 ↔ p = 0 := by
  rw [Nat.lt_one_iff]
  exact ⟨fun h => UInt16.toNat_inj.1 h, fun h => by rw [h]; rfl⟩

theorem pushIdx_lt_one {r : Request} :
    ((Operation.push r padding).partitionIdx requestHash 1).toNat < 1 ↔
      r.partitionId = 0 ∨ r.partitionId = invalidTopicId := by
  rw [toNat_lt_one, Operation.partitionIdx]
  split
  · rename_i h
    simp only [h, Nat.mod_one, or_true, iff_true]
    rfl
  · rename_i h
    simp only [h, or_false]

theorem servesInRange_error (reg : Registry) (hr : r.errorCode ≠ .ok) :
    ServesInRange f reg (.respond r) :=
  ⟨fun _ _ _ => Dispatch.noConfusion, fun _ _ _ _ => ⟨r, rfl, hr⟩⟩

theorem servesInRange_callWithRequest {op : Request → Padding → Operation}
    (hreg : reg.All OnePartition) (ht : reg.getTopic f.topicName = some t)
    (hidx : ∀ r, r.partitionId = f.partitionId →
      (((op r env.padding).partitionIdx requestHash 1).toNat < 1 ↔
        f.partitionId = 0 ∨ f.partitionId = invalidTopicId)) :
    ServesInRange f reg (callWithRequest env f op) ↔
      f.partitionId = 0 ∨ f.partitionId = invalidTopicId := by
  have hone {name : Text} {t : Topic} (ht : reg.getTopic name = some t) :
      t.storage.length = 1 := (hreg.getTopic ht).1
  constructor
  · rintro ⟨-, herr⟩
    by_contra hn
    simp only [not_or] at hn
    obtain ⟨r, hr, -⟩ := herr t ht hn.2 (by
      rw [hone ht]
      exact Nat.le_of_not_lt (mt toNat_lt_one.1 hn.1))
    rcases callWithRequest_cases env f op with he | ⟨_, -, he⟩ <;> cases he.symm.trans hr
  · intro hid
    refine ⟨fun name o u hcall hu => ?_, fun u hu hne hle => ?_⟩
    · rcases callWithRequest_cases env f op with he | ⟨r, hr, he⟩
      · cases he.symm.trans hcall
      · cases he.symm.trans hcall
        rw [hone hu]
        exact (hidx r hr).2 hid
    · rw [hone hu] at hle
      have hz := toNat_lt_one.2 (hid.resolve_right hne)
      omega

theorem handlePush_serves (hreg : reg.All OnePartition) :
    ServesInRange f (handlePush reg env f).1 (handlePush reg env f).2 ↔
      (f.topicName ≠ [] → reg.getTopic f.topicName ≠ none ∨ env.opens = true →
        f.partitionId = 0 ∨ f.partitionId = invalidTopicId) := by
  rw [handlePush]
  split
  · rename_i hname
    exact iff_of_true (servesInRange_error _ ErrorCode.noConfusion) fun hne => (hne hname).elim
  · rename_i hname
    split
    · rename_i hnone
      have hno : ¬ (reg.getTopic f.topicName ≠ none ∨ env.opens = true) := by
        intro ho
        obtain ⟨reg', hr⟩ := Registry.getOrCreateTopic_isSome ho
        cases hnone.symm.trans hr
      refine iff_of_true ⟨fun _ _ _ => Dispatch.noConfusion, fun t ht => ?_⟩
        fun _ ho => (hno ho).elim
      exact (hno (.inl (ht ▸ Option.some_ne_none t))).elim
    · rename_i reg' hr
      obtain ⟨t, ht⟩ := Registry.getTopic_getOrCreateTopic hr
      have hcond : reg.getTopic f.topicName ≠ none ∨ env.opens = true := by
        rcases Registry.getOrCreateTopic_cases hr with ⟨-, h⟩ | ⟨-, -, h⟩
        · exact .inl h
        · exact .inr h
      rw [servesInRange_callWithRequest (hreg.getOrCreateTopic onePartition_init hr) ht
        fun r hp => hp ▸ pushIdx_lt_one]
      exact ⟨fun h _ _ => h, fun h => h hname hcond⟩

theorem handlePull_serves (hreg : reg.All OnePartition) :
    ServesInRange f reg (handlePull reg f) ↔
      (f.topicName ≠ [] → reg.getTopic f.topicName ≠ none →
        f.partitionId ≠ 1 ∧ f.partitionId ≠ 2) := by
  rw [handlePull]
  split
  · rename_i hname
    exact iff_of_true (servesInRange_error _ ErrorCode.noConfusion) fun hne => (hne hname).elim
  · rename_i hname
    split
    · rename_i hnone
      exact iff_of_true (servesInRange_error _ ErrorCode.noConfusion)
        fun _ hne => (hne hnone).elim
    · rename_i t ht
      have hone := (hreg.getTopic ht).1
      split
      · rename_i hid
        exact iff_of_true (servesInRange_error _ ErrorCode.noConfusion) fun _ _ => by
          rw [hid]
          decide
      · rename_i hid
        split
        · rename_i hge
          refine iff_of_true (servesInRange_error _ ErrorCode.noConfusion) fun _ _ => ⟨?_, ?_⟩ <;>
            · rintro he
              rw [he] at hge
              exact absurd hge (by decide)
        · rename_i hlt
          constructor
          · rintro ⟨hcall, -⟩ - -
            have hz := hcall _ _ t rfl ht
            rw [hone, toNat_lt_one, Operation.partitionIdx] at hz
            rw [hz]
            decide
          · intro h
            obtain ⟨h₁, h₂⟩ := h hname (ht ▸ Option.some_ne_none t)
            have hz : f.partitionId = 0 := by
              have h₁' := mt UInt16.toNat_inj.1 h₁
              have h₂' := mt UInt16.toNat_inj.1 h₂
              have hlt' : ¬ 3 ≤ f.partitionId.toNat := hlt
              refine UInt16.toNat_inj.1 ?_
              simp only [UInt16.toNat_ofNat] at h₁' h₂' ⊢
              omega
            refine ⟨fun name op u hcall hu => ?_, fun u hu _ hle => ?_⟩
            · cases hcall
              rw [(hreg.getTopic hu).1]
              exact toNat_lt_one.2 hz
            · rw [(hreg.getTopic hu).1, hz] at hle
              exact absurd hle (by decide)

theorem handleDelete_serves (hreg : reg.All OnePartition) :
    ServesInRange f reg (handleDelete reg env f) ↔
      (f.topicName ≠ [] → reg.getTopic f.topicName ≠ none →
        f.partitionId = 0 ∨ f.partitionId = invalidTopicId) := by
  rw [handleDelete]
  split
  · rename_i hname
    exact iff_of_true (servesInRange_error _ ErrorCode.noConfusion) fun hne => (hne hname).elim
  · rename_i hname
    split
    · rename_i hnone
      exact iff_of_true (servesInRange_error _ ErrorCode.noConfusion)
        fun _ hne => (hne hnone).elim
    · rename_i t ht
      split
      · rename_i hid
        exact iff_of_true (servesInRange_error _ ErrorCode.noConfusion) fun _ _ => .inr hid
      · rename_i hid
        rw [servesInRange_callWithRequest hreg ht fun r hp => ?_]
        · exact ⟨fun h _ _ => h, fun h => h hname (ht ▸ Option.some_ne_none t)⟩
        · rw [toNat_lt_one, Operation.partitionIdx, hp]
          exact ⟨.inl, fun h => h.resolve_right hid⟩

theorem handleRequest_serves (hreg : reg.All OnePartition) :
    ServesInRange f (handleRequest reg env f).1 (handleRequest reg env f).2 ↔
      NamesServedPartition reg env f := by
  rw [handleRequest, NamesServedPartition]
  split
  · rename_i hop
    have hpull : f.opcode ≠ Opcode.pull := hop ▸ by decide
    have hdelete : f.opcode ≠ Opcode.delete := hop ▸ by decide
    rw [handlePush_serves hreg]
    exact forall_congr' fun _ => ⟨fun h => ⟨fun _ => h, fun hp => (hpull hp).elim,
      fun hd => (hdelete hd).elim⟩, fun h => h.1 hop⟩
  · rename_i hpush
    split
    · rename_i hop
      have hdelete : f.opcode ≠ Opcode.delete := hop ▸ by decide
      rw [handlePull_serves hreg]
      exact forall_congr' fun _ => ⟨fun h => ⟨fun hp => (hpush hp).elim, fun _ => h,
        fun hd => (hdelete hd).elim⟩, fun h => h.2.1 hop⟩
    · rename_i hpull
      split
      · rename_i hop
        rw [handleDelete_serves hreg]
        exact forall_congr' fun _ => ⟨fun h => ⟨fun hp => (hpush hp).elim,
          fun hp => (hpull hp).elim, fun _ => h⟩, fun h => h.2.2 hop⟩
      · rename_i hdelete
        exact iff_of_true (servesInRange_error _ ErrorCode.noConfusion)
          fun _ => ⟨fun hp => (hpush hp).elim, fun hp => (hpull hp).elim,
            fun hd => (hdelete hd).elim⟩

theorem accessesInRange_iff (h : b.registry.All OnePartition) (a : BrokerAction) :
    AccessesInRange b a ↔ ServesNamedPartitions b a := by
  have hcall {name : Text} {call : Nat} : ∀ t c, b.registry.getTopic name = some t →
      t.calls[call]? = some c → c.partition.toNat < t.storage.length :=
    fun t c ht hc => (h.getTopic ht).2.inRange call c hc
  cases a with
  | receive s env => exact forall_congr' fun f => forall_congr' fun _ => handleRequest_serves h
  | advance | failStore => exact iff_of_true hcall trivial
  | connect | reply => exact Iff.rfl

/-- For any clients and any schedule: every access to `storage_` is in range, and every id that
names no partition is answered with an error, exactly when each handled request carries an id
that its handler can serve. -/
theorem accesses_in_range_iff (acts : List BrokerAction) :
    AllSteps step AccessesInRange {} acts ↔ AllSteps step ServesNamedPartitions {} acts :=
  allSteps_congr (I := fun b => b.registry.All OnePartition)
    (fun b a b' h hs => topics_rule onePartition_init (fun _ _ _ h hs => h.step hs) b a b' h hs)
    (fun _ a h => accessesInRange_iff h a) (fun _ hx => by cases hx)

/-- The frame of a PUSH to partition 1 of the topic "a". -/
def pushBytes : List UInt8 := [0x55, 0x43, 0x4F, 0x4E, 1, 0, 1, 0, 1, 0, 0, 0, 97]

theorem accesses_in_range_fails : ¬ ∀ acts, AllSteps step AccessesInRange {} acts := by
  intro h
  have hs := ((h [.connect pushBytes, .receive 0 ⟨true, 0, fun _ => 0, .replicate 5 0⟩]).2 _ rfl).1
  have hf := hs ⟨1, 1, [97], [], by decide⟩ (by decide)
  exact absurd (hf.1 [97] _ (Topic.init 1) rfl rfl) (by decide)

end Broker
end Noctua.Rpc
