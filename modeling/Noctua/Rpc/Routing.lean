import Noctua.Rpc.Handlers
import Noctua.Topic.Coherent

namespace Noctua
open Transition
set_option autoImplicit true

namespace Topic
variable {hash : Request → Nat} {t t₀ u : Topic}

/-- The constructor of `topic_t`; its `kassert_lt` bounds the count from above only. -/
def construct (partitionsCount : Nat) : Option Topic :=
  if partitionsCount < invalidTopicId.toNat then some (init partitionsCount) else none

/-- What `push` does with a request that names no partition: it divides by a size that is not
zero, and the index fits its type, is one of the topic and is not the id that names none. -/
structure WellRouted (hash : Request → Nat) (t : Topic) (r : Request) (padding : Padding) :
    Prop where
  divisor : t.storage.length ≠ 0
  narrowed : ((Operation.push r padding).partitionIdx hash t.storage.length).toNat =
    hash r % t.storage.length
  inRange : ((Operation.push r padding).partitionIdx hash t.storage.length).toNat <
    t.storage.length
  valid : (Operation.push r padding).partitionIdx hash t.storage.length ≠ invalidTopicId

theorem partitionIdx_keyless (hr : r.partitionId = invalidTopicId) :
    (Operation.push r padding).partitionIdx hash n = UInt16.ofNat (hash r % n) := by
  rw [Operation.partitionIdx, if_pos hr]

theorem wellRouted (hz : t.storage.length ≠ 0) (hn : t.storage.length < invalidTopicId.toNat)
    (hr : r.partitionId = invalidTopicId) : WellRouted hash t r padding := by
  have hlt : hash r % t.storage.length < t.storage.length := Nat.mod_lt _ (Nat.pos_of_ne_zero hz)
  have hs : hash r % t.storage.length < 2 ^ 16 := (hlt.trans hn).trans (by decide)
  have hi : ((Operation.push r padding).partitionIdx hash t.storage.length).toNat =
      hash r % t.storage.length := by
    rw [partitionIdx_keyless hr, UInt16.toNat_ofNat_of_lt' hs]
  refine ⟨hz, hi, hi ▸ hlt, fun he => ?_⟩
  rw [he] at hi
  exact Nat.lt_irrefl _ (hi ▸ hlt.trans hn)

theorem storage_length_exec (hr : exec (step hash) t acts = some u) :
    u.storage.length = t.storage.length :=
  exec_invariant (I := fun u => u.storage.length = t.storage.length)
    (fun _ _ _ h hs => (storage_length_step hs).trans h) rfl hr

theorem construct_eq_some (hc : construct n = some t₀) :
    t₀.storage.length = n ∧ n < invalidTopicId.toNat := by
  obtain ⟨hn, rfl⟩ := Option.ite_none_right_eq_some.1 hc |>.imp_right Option.some.inj
  exact ⟨List.length_replicate, hn⟩

end Topic

namespace Rpc
open Topic

/-- Requests that name no partition are routed well in every state of a topic that the
constructor makes with this count, and with `request_hash_t` those for one topic name go to one
partition whenever they are pushed. -/
structure RoutesKeyless (partitionsCount : Nat) : Prop where
  wellRouted : ∀ hash t₀ acts t r padding, construct partitionsCount = some t₀ →
    exec (step hash) t₀ acts = some t → r.partitionId = invalidTopicId →
    WellRouted hash t r padding
  sameTopic : ∀ t₀ acts acts' t u r r' padding padding', construct partitionsCount = some t₀ →
    exec (step requestHash) t₀ acts = some t → exec (step requestHash) t₀ acts' = some u →
    r.partitionId = invalidTopicId → r'.partitionId = invalidTopicId →
    r.topicName = r'.topicName →
    (Operation.push r padding).partitionIdx requestHash t.storage.length =
      (Operation.push r' padding').partitionIdx requestHash u.storage.length

def keylessRequest : Request := ⟨[97], invalidTopicId, 0, [98], by decide⟩

/-- Of the counts that the constructor lets pass, only zero is not routed. -/
theorem routes_keyless_iff (partitionsCount : Nat) :
    RoutesKeyless partitionsCount ↔ partitionsCount ≠ 0 := by
  constructor
  · rintro h rfl
    have hw := h.wellRouted (fun _ => 0) (init 0) [] (init 0) keylessRequest (.replicate 5 0)
      rfl rfl rfl
    exact hw.divisor rfl
  · intro hz
    constructor
    case wellRouted =>
      intro hash t₀ acts t r padding hc hr hk
      obtain ⟨hl, hn⟩ := construct_eq_some hc
      have hl := (storage_length_exec hr).trans hl
      apply Topic.wellRouted _ _ hk
      · rwa [hl]
      · rwa [hl]
    case sameTopic =>
      intro t₀ acts acts' t u r r' padding padding' hc ht hu hr hr' hname
      rw [partitionIdx_keyless hr, partitionIdx_keyless hr', requestHash_congr hname,
        storage_length_exec ht, storage_length_exec hu]

theorem routes_keyless_fails : ¬ ∀ partitionsCount, RoutesKeyless partitionsCount := by
  intro h
  have hw := (h 0).wellRouted (fun _ => 0) (init 0) [] (init 0) keylessRequest (.replicate 5 0)
    rfl rfl rfl
  exact absurd hw.divisor (by decide)

end Rpc
end Noctua
