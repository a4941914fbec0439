import Noctua.Messages.Fifo
import Noctua.Topic.Trace

namespace Noctua
open Transition Messages
set_option autoImplicit true

/-- What an event did to the queue of its partition. -/
def TraceEvent.onQueue (p : Nat) : TraceEvent → Option (ListFamily.Operation Text)
  | .pushed m => some (.push p m.text)
  | .popped _ => some (.pop p)
  | .stored _ | .invoke _ _ | .respond _ _ _ => none

/-- A `push` or a `pop` at a partition, of a message that its length field can hold. -/
def OnPartitions (n : Nat) (op : ListFamily.Operation Text) : Prop :=
  op.Within n ∧ op.Carries fun msg => msg.length < 2 ^ 16

namespace Topic
variable {t u : Topic} {c : Call} {e : Effect} {p : UInt16} {hash : Request → Nat}

def queueOperations (t : Topic) : List (ListFamily.Operation Text) :=
  t.trace.filterMap fun x => x.2.onQueue x.1.toNat

def family (t : Topic) : ListFamily Text := t.storage.map fun q => some (q.map Message.text)

theorem family_live (t : Topic) (i : Nat) :
    t.family.live i = t.storage[i]?.map (List.map Message.text) := by
  rw [ListFamily.live, family, List.getElem?_map]
  cases t.storage[i]? with
  | none => rfl
  | some q => rfl

theorem family_live_partition (hp : p.toNat < t.storage.length) :
    t.family.live p.toNat = some (t.texts p) := by
  rw [family_live, texts, queue, List.getD_eq_getElem?_getD, List.getElem?_eq_getElem hp]
  rfl

theorem queueOperations_advanced (t : Topic) (i : Nat) (c : Call) (pc : Pc) (e : Effect) :
    (t.advanced i c pc e).queueOperations =
      t.queueOperations ++ (t.emitted i c e).filterMap (TraceEvent.onQueue c.partition.toNat) := by
  rw [queueOperations, advanced_trace, List.filterMap_append, List.filterMap_map]
  rfl

theorem queueOperations_invoked (t : Topic) (client : Nat) (op : Operation) (p : UInt16) :
    (t.invoked client op p).queueOperations = t.queueOperations := by
  simp only [queueOperations, invoked, emit, List.filterMap_append]
  exact List.append_nil _

theorem family_modify (t : Topic) (i : Nat) (f : List Message → List Message)
    (g : List Text → List Text) (hf : ∀ q, (f q).map Message.text = g (q.map Message.text)) :
    (t.storage.modify i f).map (fun q => some (q.map Message.text)) =
      (t.family.live i).elim t.family fun xs => t.family.set i (some (g xs)) := by
  rw [family_live]
  cases hq : t.storage[i]? with
  | none =>
    rw [List.modify_eq_self (List.getElem?_eq_none_iff.1 hq)]
    rfl
  | some q =>
    rw [List.modify_eq_set_getElem?, hq, Option.map_eq_map, Option.map_some, Option.map_some,
      Option.getD_some, List.map_set, hf]
    rfl

theorem family_push (t : Topic) (i : Nat) (m : Message) :
    (t.storage.modify i (· ++ [m])).map (fun q => some (q.map Message.text)) =
      t.family.step (.push i m.text) := by
  rw [t.family_modify i _ (· ++ [m.text]) fun _ => List.map_append, ListFamily.step]
  cases t.family.live i <;> rfl

theorem family_pop (t : Topic) (i : Nat) :
    (t.storage.modify i List.tail).map (fun q => some (q.map Message.text)) =
      t.family.step (.pop i) := by
  rw [t.family_modify i _ List.tail fun _ => List.map_tail, ListFamily.step]
  cases t.family.live i <;> rfl

theorem family_advanced (t : Topic) (i : Nat) (c : Call) (pc : Pc) (e : Effect) :
    (t.advanced i c pc e).family = t.family.run
      ((t.emitted i c e).filterMap (TraceEvent.onQueue c.partition.toNat)) := by
  change (t.perform i c e).family = _
  cases e with
  | store d =>
    simp only [perform, emitted]
    split <;> rfl
  | push m => exact t.family_push _ m
  | pop =>
    simp only [perform, emitted]
    cases t.queue c.partition with
    | nil => rfl
    | cons m ms => exact t.family_pop _
  | none | failStore | respond => rfl

theorem Next.onPartitions (hn : Next t i c pc e) (hp : k < n)
    (hop : op ∈ (t.emitted i c e).filterMap (TraceEvent.onQueue k)) : OnPartitions n op := by
  cases hn with
  | @push r padding hpc hr =>
    obtain rfl := List.mem_singleton.1 hop
    exact ⟨hp, r.message.short⟩
  | pop =>
    rw [emitted] at hop
    cases hq : t.queue c.partition with
    | nil =>
      rw [hq] at hop
      cases hop
    | cons m ms =>
      rw [hq] at hop
      obtain rfl := List.mem_singleton.1 hop
      exact ⟨hp, trivial⟩
  | store =>
    rw [emitted] at hop
    split at hop <;> cases hop
  | _ => cases hop

/-- The partitions are what the calls have made of `n` empty ones. -/
structure Stored (n : Nat) (t : Topic) : Prop where
  coherent : Coherent t
  length : t.storage.length = n
  family : t.family = ListFamily.run (List.replicate n (some [])) t.queueOperations
  onPartitions : ∀ op ∈ t.queueOperations, OnPartitions n op

theorem stored_init (n : Nat) : Stored n (init n) where
  coherent := coherent_init n
  length := List.length_replicate
  family := List.map_replicate
  onPartitions op hop := by cases hop

theorem Stored.invoked (h : Stored n t) (hp : p.toNat < t.storage.length) :
    Stored n (t.invoked client op p) where
  coherent := h.coherent.invoked hp
  length := h.length
  family := by
    rw [queueOperations_invoked]
    exact h.family
  onPartitions := by
    rw [queueOperations_invoked]
    exact h.onPartitions

theorem Stored.advanced (h : Stored n t) (hc : t.calls[i]? = some c) (hn : Next t i c pc e) :
    Stored n (t.advanced i c pc e) where
  coherent := h.coherent.advanced hc hn
  length := (advanced_storage_length t i c pc e).trans h.length
  family := by
    rw [family_advanced, queueOperations_advanced, h.family, ListFamily.run, ListFamily.run,
      ListFamily.run, List.foldl_append]
  onPartitions op hop := by
    rw [queueOperations_advanced] at hop
    obtain hop | hop := List.mem_append.1 hop
    · exact h.onPartitions op hop
    · exact hn.onPartitions (h.length ▸ h.coherent.inRange i c hc) hop

theorem stored_of_exec (h : exec (step hash) (init n) acts = some t) : Stored n t :=
  exec_invariant (step_rule (fun _ _ _ _ hs hp => hs.invoked hp)
    fun _ _ _ _ _ hs hc hn => hs.advanced hc hn) (stored_init n) h

end Topic

namespace Messages.MessageHeap
variable {s : MessageHeap} {L : ListFamily Text} {q : MessageQueue} {xs : List Text}

/-- What the constructor of a topic leaves: the queues of `n` partitions. -/
def constructed (n : Nat) : MessageHeap := { queues := List.replicate n (some {}) }

/-- The allocator returns a non-zero address below 2^47 at which no node lives. -/
def Allocates (s : MessageHeap) : QueueAction → Prop
  | .push _ _ address =>
    address ≠ 0 ∧ address < 2 ^ MessageNode.nextBits ∧ s.nodes address = none
  | .construct | .pop _ | .moveConstruct _ | .moveAssign _ _ | .destroy _ => True

instance (s : MessageHeap) : (a : QueueAction) → Decidable (s.Allocates a)
  | .push _ _ address => inferInstanceAs (Decidable
      (address ≠ 0 ∧ address < 2 ^ MessageNode.nextBits ∧ s.nodes address = none))
  | .construct | .pop _ | .moveConstruct _ | .moveAssign _ _ | .destroy _ =>
    inferInstanceAs (Decidable True)

theorem showsTexts_constructed (n : Nat) :
    ShowsTexts (constructed n) (List.replicate n (some [])) := by
  induction n with
  | zero => exact ⟨[], represents_init, fun _ _ hi => (by cases hi), rfl⟩
  | succ n ih =>
    obtain ⟨t, ht, hs⟩ := ih.step (a := .construct) ⟨trivial, trivial⟩
    cases ht
    rw [constructed, List.replicate_succ', List.replicate_succ']
    exact hs

theorem ShowsTexts.isSome_live (h : ShowsTexts s L) (i : Nat) :
    (s.live i).isSome = (L.live i).isSome := by
  have hrel := h.isList i
  generalize s.live i = o, L.live i = o' at hrel ⊢
  cases hrel <;> rfl

theorem ShowsTexts.exists_isList (h : ShowsTexts s L) (hi : L.live i = some xs) :
    ∃ q, s.live i = some q ∧ s.IsList q xs := by
  have hrel := h.isList i
  rw [hi] at hrel
  generalize s.live i = o at hrel ⊢
  cases hrel with
  | some hlist => exact ⟨_, rfl, hlist⟩

/-- A partition lives as long as its topic, so a call on it needs nothing but an allocator. -/
theorem ShowsTexts.allowed (h : ShowsTexts s L) (ha : s.Allocates a)
    (hp : OnPartitions n a.onTexts) (hl : ∀ i < n, (L.live i).isSome) : s.Allowed a ∧ a.Short := by
  obtain ⟨hw, hc⟩ := hp
  cases a with
  | push i msg address => exact ⟨⟨(h.isSome_live i).trans (hl i hw), ha⟩, hc⟩
  | pop i => exact ⟨(h.isSome_live i).trans (hl i hw), trivial⟩
  | construct | moveConstruct | moveAssign | destroy => cases hw

theorem exec_onPartitions {acts : List QueueAction} (h : ShowsTexts s L)
    (hl : ∀ i < n, (L.live i).isSome) (hp : ∀ a ∈ acts, OnPartitions n a.onTexts)
    (ha : AllSteps step Allocates s acts) :
    ∃ t, exec step s acts = some t ∧ ShowsTexts t (L.run (acts.map QueueAction.onTexts)) := by
  have keep (s : MessageHeap) (L : ListFamily Text) (a : QueueAction)
      (hs : ShowsTexts s L ∧ ∀ i < n, (L.live i).isSome)
      (ha : s.Allocates a ∧ OnPartitions n a.onTexts) :
      ∃ t, s.step a = some t ∧ ShowsTexts t (L.step a.onTexts) ∧
        ∀ i < n, ((L.step a.onTexts).live i).isSome := by
    obtain ⟨t, ht, hts⟩ := hs.1.step (hs.1.allowed ha.1 ha.2 hs.2)
    refine ⟨t, ht, hts, fun i hi => ?_⟩
    rw [ListFamily.isSome_live_step ha.2.1]
    exact hs.2 i hi
  obtain ⟨t, ht, hs, -⟩ := exec_simulation keep ⟨h, hl⟩ (ha.and_mem hp)
  refine ⟨t, ht, ?_⟩
  rw [ListFamily.run, List.foldl_map]
  exact hs

/-- `front()` is the node of the first text. -/
theorem IsList.front (h : s.IsList q xs) :
    xs.head? = if q.empty then none else (s.nodes q.head).map MessageNode.getData := by
  cases xs with
  | nil => rw [if_pos (h.empty.2 rfl)]; rfl
  | cons x xs =>
    rw [if_neg fun he => List.cons_ne_nil x xs (h.empty.1 he)]
    obtain ⟨ps, hps, hmap, -⟩ := h.traversal
    obtain ⟨p, ps, rfl, hp, -⟩ := List.map_eq_cons_iff.1 hmap
    have hw := hps (xs.length + 2) (Nat.lt_succ_self _)
    rw [traverse, Chain.walk] at hw
    split at hw
    · cases hw
    · obtain ⟨node, hn, hw⟩ := Option.bind_eq_some_iff.1 hw
      obtain ⟨as, -, hw⟩ := Option.map_eq_some_iff.1 hw
      cases hw
      exact hp.symm

end Messages.MessageHeap

namespace Topic
variable {t : Topic} {hash : Request → Nat}
open MessageHeap

/-- Whatever free addresses the allocator returns, no call touches a node that does not live, the
queue of each partition on the heap is its list of messages, and the node at its front holds the
text that `read` and `remove` see. -/
theorem storage_on_heap (h : exec (step hash) (init n) acts = some t) (ops : List QueueAction)
    (hops : ops.map QueueAction.onTexts = t.queueOperations)
    (ha : AllSteps MessageHeap.step Allocates (constructed n) ops) :
    ∃ s, exec MessageHeap.step (constructed n) ops = some s ∧
      ∀ p : UInt16, p.toNat < n → ∃ q, s.live p.toNat = some q ∧ s.IsList q (t.texts p) ∧
        headText (t.queue p) =
          if q.empty then none else (s.nodes q.head).map MessageNode.getData := by
  have hstored := stored_of_exec h
  have hlive : ∀ i < n, (ListFamily.live (List.replicate n (some ([] : List Text))) i).isSome := by
    intro i hi
    rw [ListFamily.live, List.getElem?_replicate, if_pos hi]
    rfl
  have hon : ∀ a ∈ ops, OnPartitions n a.onTexts := by
    intro a hm
    apply hstored.onPartitions
    rw [← hops]
    exact List.mem_map_of_mem hm
  obtain ⟨s, hs, hshows⟩ := exec_onPartitions (showsTexts_constructed n) hlive hon ha
  refine ⟨s, hs, fun p hp => ?_⟩
  rw [hops, ← hstored.family] at hshows
  obtain ⟨q, hq, hlist⟩ :=
    hshows.exists_isList (family_live_partition (hstored.length.symm ▸ hp))
  exact ⟨q, hq, hlist, List.head?_map.symm.trans hlist.front⟩

/-- A text is pushed, removed and pushed again, at the address that has come free. -/
theorem storage_on_heap_reused :
    let r := Request.ofByte 98
    let acts : List TopicAction := List.flatten
      [[.invoke 0 (.push r (.replicate 5 0))], List.replicate 6 (.advance 0),
        [.invoke 0 (.remove r (.replicate 5 0))], List.replicate 10 (.advance 1),
        [.invoke 0 (.push r (.replicate 5 0))], List.replicate 6 (.advance 2)]
    ∃ t s, exec (step fun _ => 0) (init 1) acts = some t ∧
      exec MessageHeap.step (constructed 1) [.push 0 [98] 16, .pop 0, .push 0 [98] 16] = some s ∧
      ∃ q, s.live 0 = some q ∧ s.IsList q (t.texts 0) := by
  intro r acts
  have hr : (exec (step fun _ => 0) (init 1) acts).map queueOperations =
      some [.push 0 [98], .pop 0, .push 0 [98]] := by decide +kernel
  obtain ⟨t, ht, hops⟩ := Option.map_eq_some_iff.1 hr
  obtain ⟨s, hs, hp⟩ := storage_on_heap ht [.push 0 [98] 16, .pop 0, .push 0 [98] 16]
    hops.symm (by decide +kernel)
  obtain ⟨q, hq, hlist, -⟩ := hp 0 Nat.one_pos
  exact ⟨t, s, ht, hs, q, hq, hlist⟩

end Topic
end Noctua
