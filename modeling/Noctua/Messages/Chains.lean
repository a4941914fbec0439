import Noctua.Library.Ledger
import Noctua.Messages.MessageQueue
import Mathlib.Data.List.Range

namespace Noctua.Messages
open Function
set_option autoImplicit true

/-- A message of a queue: where its node is, which node it is, and its text. -/
structure Entry where
  address : Nat
  id : Nat
  text : Text
  deriving DecidableEq, Repr

def Holds (nodes : Nat → Option MessageNode) (e : Entry) : Prop :=
  ∃ m, nodes e.address = some m ∧ m.id = e.id ∧ m.data = e.text ∧
    m.size = e.text.length % 2 ^ 16

/-- The fields of a queue describe a chain of these entries. -/
structure Chained (nodes : Nat → Option MessageNode) (q : MessageQueue) (es : List Entry) :
    Prop where
  linked : Chain.Linked nodes MessageNode.getNext 0 q.head (es.map Entry.address)
  holds : ∀ e ∈ es, Holds nodes e
  size : q.size.toNat = es.length
  tail : q.tail = (es.map Entry.address).getLast?.getD 0

section
variable {nodes nodes' : Nat → Option MessageNode} {q : MessageQueue} {e : Entry} {es : List Entry}

theorem Holds.frame (h : Holds nodes e) (he : nodes' e.address = nodes e.address) :
    Holds nodes' e := by
  obtain ⟨m, hm, hrest⟩ := h
  exact ⟨m, he.trans hm, hrest⟩

theorem Chained.frame (h : Chained nodes q es)
    (hf : ∀ e ∈ es, nodes' e.address = nodes e.address) : Chained nodes' q es where
  linked := by
    apply h.linked.frame
    intro a ha
    obtain ⟨e, he, rfl⟩ := List.mem_map.1 ha
    exact hf e he
  holds e he := (h.holds e he).frame (hf e he)
  size := h.size
  tail := h.tail

theorem chained_nil : Chained nodes {} [] :=
  ⟨rfl, fun _ he => (by cases he), rfl, rfl⟩

theorem Chained.address_ne_zero (h : Chained nodes q es) (he : e ∈ es) : e.address ≠ 0 :=
  (h.linked.live (List.mem_map_of_mem he)).1

theorem Chained.tail_eq_zero (h : Chained nodes q es) : q.tail = 0 ↔ es = [] := by
  rw [h.tail]
  constructor
  · intro hz
    cases es using List.reverseRecOn with
    | nil => rfl
    | append_singleton es e =>
      rw [List.map_append, List.map_singleton, List.getLast?_concat] at hz
      exact (h.address_ne_zero (List.mem_append_right _ List.mem_cons_self) hz).elim
  · rintro rfl
    rfl

theorem Chained.head_eq_zero (h : Chained nodes q es) : q.head = 0 ↔ es = [] := by
  cases es with
  | nil => exact iff_of_true h.linked rfl
  | cons e es =>
    have hh : q.head = e.address := h.linked.1
    refine iff_of_false ?_ (List.cons_ne_nil _ _)
    rw [hh]
    exact h.address_ne_zero List.mem_cons_self

theorem Chained.nodup (h : Chained nodes q es) : (es.map Entry.address).Nodup :=
  Chain.Linked.nodup h.linked

theorem Chained.address_ne (h : Chained nodes q es) (ha : nodes a = none) (he : e ∈ es) :
    e.address ≠ a := by
  rintro rfl
  obtain ⟨m, hm, -⟩ := h.holds e he
  cases hm.symm.trans ha

theorem holds_create {id : Nat} (ha : nodes' a = some (.create id msg)) :
    Holds nodes' ⟨a, id, msg⟩ := ⟨_, ha, rfl, rfl, MessageNode.size_create id msg⟩

theorem Holds.setNext (h : Holds nodes e) (hm : nodes e.address = some m)
    (hm' : nodes' e.address = some (m.setNext next)) : Holds nodes' e := by
  obtain ⟨m', he, hi, hd, hs⟩ := h
  cases hm.symm.trans he
  exact ⟨_, hm', hi, hd, (m.size_setNext next).trans hs⟩

end

namespace MessageHeap
variable {s t u : MessageHeap} {q : MessageQueue} {e : Entry} {es fs : List Entry}

structure Pushed (s : MessageHeap) (es : List Entry) (e : Entry) (q : MessageQueue)
    (t : MessageHeap) : Prop where
  chained : Chained t.nodes q (es ++ [e])
  frame : ∀ a, a ≠ e.address → a ∉ es.map Entry.address → t.nodes a = s.nodes a
  queues : t.queues = s.queues
  created : t.created = s.created + 1
  log : t.log = s.log

theorem size_succ (h : q.size.toNat = n) (hn : n + 1 < 2 ^ 64) : (q.size + 1).toNat = n + 1 := by
  rw [UInt64.toNat_add, h]
  exact Nat.mod_eq_of_lt hn

theorem push_first (h : Chained s.nodes q []) (hz : a ≠ 0) :
    ∃ q' t, s.push q msg a = some (q', t) ∧ Pushed s [] ⟨a, s.created, msg⟩ q' t := by
  have hnew : (s.createMessage a msg).nodes a = some (.create s.created msg) := update_self ..
  refine ⟨_, _, if_pos (h.tail_eq_zero.2 rfl), ?_⟩
  constructor
  case chained =>
    constructor
    case linked => exact ⟨rfl, hz, _, hnew, MessageNode.getNext_create ..⟩
    case holds =>
      intro e he
      rw [List.mem_singleton.1 he]
      exact holds_create hnew
    case size => exact size_succ h.size (by decide)
    case tail => rfl
  case frame => exact fun b hb _ => update_of_ne hb _ _
  case queues => rfl
  case created => rfl
  case log => rfl

/-- A new node `n` stands behind the last one, and the heaps differ in these two only. -/
structure Attached (nodes nodes' : Nat → Option MessageNode) (e : Entry) (m n : MessageNode)
    (a : Nat) : Prop where
  last : nodes e.address = some m
  linked : nodes' e.address = some (m.setNext a)
  fresh : nodes a = none
  added : nodes' a = some n
  frame : ∀ b, b ≠ a → b ≠ e.address → nodes' b = nodes b

section
variable {nodes nodes' : Nat → Option MessageNode} {m n : MessageNode} {x : Entry}

theorem Attached.before (h : Attached nodes nodes' e m n a) (hc : Chained nodes q (es ++ [e]))
    (hx : x ∈ es) : nodes' x.address = nodes x.address := by
  apply h.frame
  · exact hc.address_ne h.fresh (List.mem_append_left _ hx)
  · have hd := hc.nodup
    rw [List.map_append, List.map_singleton] at hd
    exact fun he => List.disjoint_of_nodup_append hd (List.mem_map_of_mem hx)
      (List.mem_singleton.2 he)

theorem Attached.chain (h : Attached nodes nodes' e m n a) (hc : Chained nodes q (es ++ [e]))
    (hz : a ≠ 0) (hlt : a < 2 ^ MessageNode.nextBits) (hn : n.getNext = 0) :
    Chain.Linked nodes' MessageNode.getNext 0 q.head
      (es.map Entry.address ++ [e.address] ++ [a]) := by
  have hl := hc.linked
  rw [List.map_append, List.map_singleton] at hl
  apply Chain.Linked.snoc hl
  · intro b hb
    obtain ⟨x, hx, rfl⟩ := List.mem_map.1 hb
    exact h.before hc hx
  · exact h.linked
  · exact m.getNext_setNext hlt
  · exact hz
  · exact h.added
  · exact hn

theorem Attached.holds (h : Attached nodes nodes' e m n a) (hc : Chained nodes q (es ++ [e]))
    (hx : x ∈ es ++ [e]) : Holds nodes' x := by
  have hold := hc.holds x hx
  obtain hx | hx := List.mem_append.1 hx
  · exact hold.frame (h.before hc hx)
  · cases List.mem_singleton.1 hx
    exact hold.setNext h.last h.linked

end

theorem setNext_attaches (msg : Text) (hc : Chained s.nodes q (es ++ [e])) (ha : s.nodes a = none) :
    ∃ m nodes, (s.createMessage a msg).setNext q.tail a =
        some { s.createMessage a msg with nodes := nodes } ∧
      Attached s.nodes nodes e m (.create s.created msg) a := by
  have hlast : e ∈ es ++ [e] := List.mem_append_right _ List.mem_cons_self
  obtain ⟨m, hm, -⟩ := hc.holds e hlast
  have hne : e.address ≠ a := hc.address_ne ha hlast
  have htail : q.tail = e.address := by
    rw [hc.tail, List.map_append, List.map_singleton, List.getLast?_concat]
    rfl
  have hold : (s.createMessage a msg).nodes e.address = some m := (update_of_ne hne _ _).trans hm
  refine ⟨m, update (s.createMessage a msg).nodes e.address (some (m.setNext a)), ?_, ?_⟩
  · rw [setNext, htail, hold]
    rfl
  · constructor
    case last => exact hm
    case linked => exact update_self ..
    case fresh => exact ha
    case added => exact (update_of_ne hne.symm _ _).trans (update_self ..)
    case frame => exact fun b hb hb' => (update_of_ne hb' _ _).trans (update_of_ne hb _ _)

theorem push_next (h : Chained s.nodes q (es ++ [e])) (ha : s.nodes a = none) (hz : a ≠ 0)
    (hlt : a < 2 ^ MessageNode.nextBits) (hn : (es ++ [e]).length + 1 < 2 ^ 64) :
    ∃ q' t, s.push q msg a = some (q', t) ∧ Pushed s (es ++ [e]) ⟨a, s.created, msg⟩ q' t := by
  obtain ⟨m, nodes, hset, hatt⟩ := setNext_attaches msg h ha
  refine ⟨{ q with size := q.size + 1, tail := a }, { s.createMessage a msg with nodes := nodes },
    ?_, ?_⟩
  · have ht : q.tail ≠ 0 := fun hq => (by simpa using h.tail_eq_zero.1 hq)
    rw [push, if_neg ht, hset]
    rfl
  · constructor
    case chained =>
      constructor
      case linked =>
        have hl := hatt.chain h hz hlt (MessageNode.getNext_create ..)
        rw [List.map_append, List.map_append, List.map_singleton, List.map_singleton]
        exact hl
      case holds =>
        intro x hx
        obtain hx | hx := List.mem_append.1 hx
        · exact hatt.holds h hx
        · rw [List.mem_singleton.1 hx]
          exact holds_create hatt.added
      case size =>
        rw [List.length_append]
        exact size_succ h.size hn
      case tail =>
        rw [List.map_append, List.map_singleton, List.getLast?_concat]
        rfl
    case frame =>
      intro b hb hb'
      apply hatt.frame b hb
      rintro rfl
      exact hb' (List.mem_map_of_mem (List.mem_append_right _ List.mem_cons_self))
    case queues => rfl
    case created => rfl
    case log => rfl

theorem push_spec (msg : Text) (h : Chained s.nodes q es) (ha : s.nodes a = none) (hz : a ≠ 0)
    (hlt : a < 2 ^ MessageNode.nextBits) (hn : es.length + 1 < 2 ^ 64) :
    ∃ q' t, s.push q msg a = some (q', t) ∧ Pushed s es ⟨a, s.created, msg⟩ q' t := by
  cases es using List.reverseRecOn with
  | nil => exact push_first h hz
  | append_singleton es e => exact push_next h ha hz hlt hn

/-- The events of a node that is followed and then destroyed. -/
def visit (id : Nat) : List NodeEvent := [.followed id, .destroyed id]

structure Removed (s : MessageHeap) (gone : List Entry) (t : MessageHeap) : Prop where
  frame : ∀ a, a ∉ gone.map Entry.address → t.nodes a = s.nodes a
  queues : t.queues = s.queues
  created : t.created = s.created
  log : t.log = s.log ++ (gone.map Entry.id).flatMap visit

theorem removed_nil : Removed s [] s := ⟨fun _ _ => rfl, rfl, rfl, (List.append_nil _).symm⟩

theorem Removed.cons (h : Removed s [e] t) (h' : Removed t es u) : Removed s (e :: es) u where
  frame a ha := by
    rw [List.map_cons, List.mem_cons, not_or] at ha
    rw [h'.frame a ha.2, h.frame a (by simpa using ha.1)]
  queues := h'.queues.trans h.queues
  created := h'.created.trans h.created
  log := by
    rw [h'.log, h.log, List.append_assoc, ← List.flatMap_append]
    rfl

theorem remove_head (h : Holds s.nodes e) (hz : e.address ≠ 0)
    (hm : s.nodes e.address = some m) : ∃ t u, s.getNext e.address = some (m.getNext, t) ∧
      t.destroyMessage e.address = some u ∧ Removed s [e] u := by
  obtain ⟨n, hn, hi, -⟩ := h
  cases hm.symm.trans hn
  refine ⟨{ s with log := s.log ++ [.followed m.id] },
    { s with
      nodes := update s.nodes e.address none
      log := s.log ++ [.followed m.id] ++ [.destroyed m.id] }, ?_, ?_, ?_⟩
  · rw [getNext, hm]
    rfl
  · rw [destroyMessage, if_neg hz, hm]
    rfl
  · constructor
    case frame =>
      intro a ha
      exact update_of_ne (by simpa using ha) _ _
    case queues => rfl
    case created => rfl
    case log =>
      rw [List.append_assoc, hi]
      rfl

theorem Removed.rest (h : Removed s [e] t) (hd : ((e :: es).map Entry.address).Nodup) :
    ∀ x ∈ es, t.nodes x.address = s.nodes x.address := by
  intro x hx
  apply h.frame
  rw [List.map_singleton, List.mem_singleton]
  intro he
  exact (List.nodup_cons.1 hd).1 (he ▸ List.mem_map_of_mem hx)

theorem segment_rest (h : Chain.Segment s.nodes MessageNode.getNext 0 0 p (es.map Entry.address))
    (hf : ∀ x ∈ es, t.nodes x.address = s.nodes x.address) :
    Chain.Segment t.nodes MessageNode.getNext 0 0 p (es.map Entry.address) := by
  apply h.frame
  intro a ha
  obtain ⟨x, hx, rfl⟩ := List.mem_map.1 ha
  exact hf x hx

theorem pop_spec (h : Chained s.nodes q es) : ∃ q' t, s.pop q = some (q', t) ∧
    Chained t.nodes q' es.tail ∧ Removed s (es.take 1) t := by
  cases es with
  | nil => exact ⟨q, s, if_pos (h.head_eq_zero.2 rfl), h, removed_nil⟩
  | cons e es =>
    obtain ⟨hhead, hz, m, hm, hs⟩ := h.linked
    obtain ⟨t, u, hget, hdestroy, hr⟩ := remove_head (h.holds e List.mem_cons_self) hz hm
    have hrest := hr.rest h.nodup
    refine ⟨{ size := q.size - 1, head := m.getNext, tail := if m.getNext = 0 then 0 else q.tail },
      u, ?_, ?_, hr⟩
    · rw [pop, hhead, if_neg hz, hget, Option.bind_some]
      change (t.destroyMessage e.address).map _ = _
      rw [hdestroy]
      rfl
    · have hl : Chain.Linked u.nodes MessageNode.getNext 0 m.getNext (es.map Entry.address) :=
        segment_rest hs hrest
      constructor
      case linked => exact hl
      case holds =>
        exact fun x hx => (h.holds x (List.mem_cons_of_mem _ hx)).frame (hrest x hx)
      case size =>
        have hsz := h.size
        rw [List.length_cons] at hsz
        have hle : (1 : UInt64) ≤ q.size := by
          rw [UInt64.le_iff_toNat_le, hsz]
          exact Nat.le_add_left _ _
        rw [UInt64.toNat_sub_of_le _ _ hle, hsz]
        rfl
      case tail =>
        cases es with
        | nil => exact if_pos hl
        | cons x xs =>
          have hx : m.getNext ≠ 0 := fun he => hl.2.1 (hl.1.symm.trans he)
          change (if m.getNext = 0 then 0 else q.tail) = _
          rw [if_neg hx, h.tail, List.map_cons, List.map_cons, List.getLast?_cons_cons]
          rfl

theorem destroyLoop_spec (h : Chain.Linked s.nodes MessageNode.getNext 0 p (es.map Entry.address))
    (hh : ∀ e ∈ es, Holds s.nodes e) (hf : es.length < fuel) :
    ∃ t, destroyLoop fuel s p = some t ∧ Removed s es t := by
  induction es generalizing s p fuel with
  | nil =>
    cases fuel with
    | zero => cases hf
    | succ fuel => exact ⟨s, if_pos h, removed_nil⟩
  | cons e es ih =>
    have hd := Chain.Linked.nodup h
    obtain ⟨rfl, hz, m, hm, hs⟩ := h
    cases fuel with
    | zero => cases hf
    | succ fuel =>
      obtain ⟨t, u, hget, hdestroy, hr⟩ := remove_head (hh e List.mem_cons_self) hz hm
      have hrest := hr.rest hd
      obtain ⟨v, hv, hrv⟩ := ih (segment_rest hs hrest)
        (fun x hx => (hh x (List.mem_cons_of_mem _ hx)).frame (hrest x hx))
        (Nat.lt_of_succ_lt_succ hf)
      refine ⟨v, ?_, hr.cons hrv⟩
      rw [destroyLoop, if_neg hz, hget, Option.bind_some]
      change (t.destroyMessage e.address).bind _ = _
      rw [hdestroy, Option.bind_some, hv]

end MessageHeap
end Noctua.Messages
