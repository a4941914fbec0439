import Noctua.Messages.Represents

namespace Noctua.Messages
open Transition
set_option autoImplicit true

def QueueAction.onTexts : QueueAction → ListFamily.Operation Text
  | .construct => .construct
  | .push i msg _ => .push i msg
  | .pop i => .pop i
  | .moveConstruct j => .moveConstruct j
  | .moveAssign i j => .moveAssign i j
  | .destroy i => .destroy i

/-- The callers of `push` bound the message by the 16 bits of its length. -/
def QueueAction.Short : QueueAction → Prop
  | .push _ msg _ => msg.length < 2 ^ 16
  | _ => True

instance : (a : QueueAction) → Decidable a.Short
  | .push _ msg _ => inferInstanceAs (Decidable (msg.length < 2 ^ 16))
  | .construct | .pop _ | .moveConstruct _ | .moveAssign _ _ | .destroy _ =>
    inferInstanceAs (Decidable True)

def listsOf (acts : List QueueAction) : ListFamily Text :=
  ListFamily.run [] (acts.map QueueAction.onTexts)

theorem Holds.getData {nodes : Nat → Option MessageNode} (h : Holds nodes e)
    (hs : e.text.length < 2 ^ 16) :
    (nodes e.address).map MessageNode.getData = some e.text := by
  obtain ⟨m, hm, -, hd, hsize⟩ := h
  rw [hm, Option.map_some, MessageNode.getData, hsize, hd, Nat.mod_eq_of_lt hs, List.take_length]

theorem MessageQueue.empty_iff_size (q : MessageQueue) : q.empty = true ↔ q.size.toNat = 0 := by
  rw [MessageQueue.empty, beq_iff_eq, ← UInt64.toNat_inj]
  rfl

namespace MessageHeap
variable {s : MessageHeap} {F : ListFamily Entry} {q : MessageQueue} {es : List Entry}

/-- What a program sees of a queue is this list. -/
structure IsList (s : MessageHeap) (q : MessageQueue) (texts : List Text) : Prop where
  traversal : ∃ ps, (∀ fuel, texts.length < fuel → s.traverse fuel q = some ps) ∧
    ps.map (fun p => (s.nodes p).map MessageNode.getData) = texts.map some ∧
    q.tail = ps.getLast?.getD 0
  size : q.size.toNat = texts.length
  empty : q.empty = true ↔ texts = []

theorem isList_of_chained (h : Chained s.nodes q es) (hs : ∀ e ∈ es, e.text.length < 2 ^ 16) :
    s.IsList q (es.map Entry.text) where
  traversal := by
    refine ⟨es.map Entry.address, fun fuel hf => ?_, ?_, h.tail⟩
    · rw [List.length_map] at hf
      exact Chain.walk_of_linked h.linked (by rwa [List.length_map])
    · rw [List.map_map, List.map_map]
      exact List.map_congr_left fun e he => (h.holds e he).getData (hs e he)
  size := by rw [h.size, List.length_map]
  empty := by rw [q.empty_iff_size, h.size, List.length_eq_zero_iff, List.map_eq_nil_iff]

theorem map_entryOf (s : MessageHeap) (a : QueueAction) :
    (s.entryOf a).map Entry.text = a.onTexts := by cases a <;> rfl

theorem carries_entryOf {a : QueueAction} (h : a.Short) :
    (s.entryOf a).Carries fun e => e.text.length < 2 ^ 16 := by
  cases a with
  | push i msg address => exact h
  | construct | pop | moveConstruct | moveAssign | destroy => trivial

/-- The heap represents these texts, all of them short. -/
def ShowsTexts (s : MessageHeap) (L : ListFamily Text) : Prop :=
  ∃ F, Represents s F ∧ F.All (fun e => e.text.length < 2 ^ 16) ∧ F.mapItems Entry.text = L

theorem ShowsTexts.step {L : ListFamily Text} (h : ShowsTexts s L)
    (ha : s.Allowed a ∧ a.Short) :
    ∃ t, s.step a = some t ∧ ShowsTexts t (L.step a.onTexts) := by
  obtain ⟨F, hr, hall, rfl⟩ := h
  obtain ⟨t, ht, hr'⟩ := hr.step ha.1
  refine ⟨t, ht, _, hr', hall.step (carries_entryOf ha.2), ?_⟩
  rw [← s.map_entryOf a, ListFamily.step_map]

theorem ShowsTexts.isList {L : ListFamily Text} (h : ShowsTexts s L) (i : Nat) :
    Option.Rel s.IsList (s.live i) (L.live i) := by
  obtain ⟨F, hr, hall, rfl⟩ := h
  rw [ListFamily.live_map]
  cases hq : s.live i with
  | none =>
    have hs := hr.isSome_live i
    rw [hq] at hs
    rw [Option.not_isSome_iff_eq_none.1 (Bool.eq_false_iff.1 hs.symm)]
    exact .none
  | some q =>
    obtain ⟨es, he, hc⟩ := hr.exists_live hq
    rw [he]
    exact .some (isList_of_chained hc (hall i es he))

/-- Queues that are pushed to, popped and moved are lists that are appended to, shortened and
moved. -/
theorem queues_are_lists (acts : List QueueAction)
    (h : AllSteps step (fun s a => s.Allowed a ∧ a.Short) {} acts) :
    ∃ t, exec step {} acts = some t ∧
      ∀ i, Option.Rel t.IsList (t.live i) ((listsOf acts).live i) := by
  have hinit : ShowsTexts {} [] := ⟨[], represents_init, fun _ _ hi => (by cases hi), rfl⟩
  have keep (s : MessageHeap) (L : ListFamily Text) (a : QueueAction) (hs : ShowsTexts s L)
      (ha : s.Allowed a ∧ a.Short) :
      ∃ t, s.step a = some t ∧ ShowsTexts t (L.step a.onTexts) := hs.step ha
  obtain ⟨t, ht, hshows⟩ := exec_simulation keep hinit h
  refine ⟨t, ht, ?_⟩
  rw [listsOf, ListFamily.run, List.foldl_map]
  exact hshows.isList

/-- Two queues change places after a message has gone and its address has come back. -/
theorem queues_are_lists_moved :
    let acts : List QueueAction :=
      [.construct, .push 0 [104, 105] 16, .push 0 [] 32, .pop 0, .moveConstruct 0,
        .push 0 [7] 16, .push 1 [8] 48, .moveAssign 0 1, .moveAssign 1 1, .destroy 1]
    ∃ t, exec step {} acts = some t ∧
      ∀ i, Option.Rel t.IsList (t.live i) (ListFamily.live [some [[], [8]], none] i) :=
  queues_are_lists _ (by decide +kernel)

end MessageHeap
end Noctua.Messages
