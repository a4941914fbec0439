import Noctua.Messages.Represents

namespace Noctua.Messages
open Transition
set_option autoImplicit true

namespace MessageHeap
variable {s : MessageHeap} {F : ListFamily Entry} {q : MessageQueue} {es : List Entry} {id : Nat}

def reachable (s : MessageHeap) (q : MessageQueue) : Option (List Nat) :=
  (s.traverse (s.created + 1) q).map fun ps =>
    ps.filterMap fun p => (s.nodes p).map MessageNode.id

def Reaches (s : MessageHeap) (i id : Nat) : Prop :=
  ∃ q vs, s.live i = some q ∧ s.reachable q = some vs ∧ id ∈ vs

/-- Every node has one owner until it is destroyed, and nothing is done to it afterwards. -/
structure FreedOnce (s : MessageHeap) : Prop where
  traversal : ∀ i q, s.live i = some q → ∃ vs, s.reachable q = some vs ∧ vs.Nodup
  owned : ∀ id < s.created, (∃! i, s.Reaches i id) ∨ id ∈ s.destroyed
  separate : ∀ i id, s.Reaches i id → id < s.created ∧ id ∉ s.destroyed
  created : ∀ id ∈ s.destroyed, id < s.created
  once : s.destroyed.Nodup
  safe : SafeLog s.log
  freed : (∀ i, s.live i = none) → ∀ id < s.created, id ∈ s.destroyed

theorem filterMap_id {nodes : Nat → Option MessageNode} (h : ∀ e ∈ es, Holds nodes e) :
    (es.map Entry.address).filterMap (fun p => (nodes p).map MessageNode.id) =
      es.map Entry.id := by
  induction es with
  | nil => rfl
  | cons e es ih =>
    obtain ⟨m, hm, hid, -⟩ := h e List.mem_cons_self
    have hrest := ih fun x hx => h x (List.mem_cons_of_mem _ hx)
    simp only [List.map_cons, List.filterMap_cons, hm, Option.map_some, hid, hrest]

theorem Represents.reachable (h : Represents s F) (he : F.live i = some es)
    (hc : Chained s.nodes q es) : s.reachable q = some (es.map Entry.id) := by
  have hw : s.traverse (s.created + 1) q = some (es.map Entry.address) := by
    apply Chain.walk_of_linked hc.linked
    rw [List.length_map]
    exact Nat.lt_succ_of_le (h.length_le he).1
  rw [MessageHeap.reachable, hw, Option.map_some, filterMap_id hc.holds]

theorem Represents.reaches_iff (h : Represents s F) :
    s.Reaches i id ↔ ∃ es, F.live i = some es ∧ id ∈ es.map Entry.id := by
  constructor
  · rintro ⟨q, vs, hi, hv, hm⟩
    obtain ⟨es, he, hc⟩ := h.exists_live hi
    cases hv.symm.trans (h.reachable he hc)
    exact ⟨es, he, hm⟩
  · rintro ⟨es, he, hm⟩
    have hs := h.isSome_live i
    rw [he] at hs
    obtain ⟨q, hi⟩ := Option.isSome_iff_exists.1 hs
    exact ⟨q, es.map Entry.id, hi, h.reachable he (h.chained i q es hi he), hm⟩

theorem Represents.accounted (h : Represents s F) :
    (ids F ++ s.destroyed).Perm (List.range s.created) := h.ledger.states

theorem Represents.nodup_ids (h : Represents s F) : (ids F ++ s.destroyed).Nodup :=
  h.accounted.nodup_iff.2 List.nodup_range

theorem Represents.existsUnique_reaches (h : Represents s F) (hm : id ∈ ids F) :
    ∃! i, s.Reaches i id := by
  obtain ⟨o, ho, hid⟩ := List.mem_flatMap.1 hm
  obtain ⟨i, hi⟩ := List.mem_iff_getElem?.1 ho
  cases o with
  | none => cases hid
  | some es =>
    refine ⟨i, h.reaches_iff.2 ⟨es, Option.join_eq_some_iff.2 hi, hid⟩, ?_⟩
    intro j hj
    obtain ⟨fs, hf, hid'⟩ := h.reaches_iff.1 hj
    exact Ledger.holdings_sole h.nodup_ids.of_append_left (Option.join_eq_some_iff.1 hf) hi
      hid' hid

theorem Represents.mem_ids (h : Represents s F) (hr : s.Reaches i id) : id ∈ ids F := by
  obtain ⟨es, he, hm⟩ := h.reaches_iff.1 hr
  exact Ledger.mem_holdings (Option.join_eq_some_iff.1 he) hm

theorem Represents.freedOnce (h : Represents s F) : s.FreedOnce := by
  have split (id : Nat) (hlt : id < s.created) : (∃! i, s.Reaches i id) ∨ id ∈ s.destroyed := by
    have hm := h.accounted.symm.subset (List.mem_range.2 hlt)
    exact (List.mem_append.1 hm).imp_left h.existsUnique_reaches
  have hn := h.nodup_ids
  constructor
  case traversal =>
    intro i q hi
    obtain ⟨es, he, hc⟩ := h.exists_live hi
    have hp : (ids F).Perm (es.map Entry.id ++ ids (F.set i none)) :=
      Ledger.holdings_drop (Option.join_eq_some_iff.1 he) (List.append_nil _).symm
    exact ⟨_, h.reachable he hc, (hp.nodup_iff.1 hn.of_append_left).of_append_left⟩
  case owned => exact split
  case separate =>
    intro i id hr
    have hm := h.mem_ids hr
    exact ⟨List.mem_range.1 (h.accounted.subset (List.mem_append_left _ hm)),
      fun hd => List.disjoint_of_nodup_append hn hm hd⟩
  case created =>
    exact fun id hd => List.mem_range.1 (h.accounted.subset (List.mem_append_right _ hd))
  case once => exact hn.of_append_right
  case safe => exact h.safe
  case freed =>
    intro hdead id hlt
    obtain ⟨i, ⟨q, vs, hi, -⟩, -⟩ | hd := split id hlt
    · cases hi.symm.trans (hdead i)
    · exact hd

/-- However queues are moved, every node is freed exactly once and none is touched after. -/
theorem nodes_freed_once (acts : List QueueAction) (h : AllSteps step Allowed {} acts) :
    (exec step {} acts).isSome ∧ Throughout step FreedOnce {} acts := by
  have keep (s : MessageHeap) (a : QueueAction) (hs : ∃ F, Represents s F) (ha : s.Allowed a) :
      ∃ t, s.step a = some t ∧ ∃ F, Represents t F := by
    obtain ⟨F, hr⟩ := hs
    obtain ⟨t, ht, hr'⟩ := hr.step ha
    exact ⟨t, ht, _, hr'⟩
  have kept (s : MessageHeap) (a : QueueAction) (t : MessageHeap) (hs : ∃ F, Represents s F)
      (ha : s.Allowed a) (ht : s.step a = some t) : ∃ F, Represents t F := by
    obtain ⟨u, hu, hr⟩ := keep s a hs ha
    cases ht.symm.trans hu
    exact hr
  have init : ∃ F, Represents {} F := ⟨[], represents_init⟩
  constructor
  · obtain ⟨t, ht, -⟩ := exec_progress keep init h
    exact Option.isSome_iff_exists.2 ⟨t, ht⟩
  · exact (throughout_of_allSteps kept init h).mono fun s ⟨F, hr⟩ => hr.freedOnce

/-- Nodes change owners twice, one is freed by `pop` and its address comes back. -/
theorem nodes_freed_once_moved :
    let acts : List QueueAction :=
      [.construct, .push 0 [1] 16, .push 0 [2] 32, .moveConstruct 0, .pop 1, .push 0 [3] 16,
        .moveAssign 0 1, .moveAssign 0 0, .destroy 0, .destroy 1]
    (exec step {} acts).isSome ∧ Throughout step FreedOnce {} acts :=
  nodes_freed_once _ (by decide +kernel)

end MessageHeap
end Noctua.Messages
