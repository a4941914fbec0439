import Noctua.Topic.Alone
import Noctua.Topic.Recovery

namespace Noctua
open Transition
set_option autoImplicit true

def Operation.pushRequest : Operation → Option Request
  | .push r _ => some r
  | _ => none

def TopicAction.opening : TopicAction → Option (Nat × Operation)
  | .invoke client op => some (client, op)
  | _ => none

def Call.opening (c : Call) : Nat × Operation := (c.client, c.operation)

def Call.reads (client : Nat) (p : UInt16) (x : Text) (c : Call) : Bool :=
  match c.pc with
  | .finished (.message (some m)) => c.client == client && c.partition == p && m.text == x
  | _ => false

def Call.removes (client : Nat) (p : UInt16) (x : Text) (c : Call) : Bool :=
  match c.operation with
  | .remove r _ => c.client == client && c.partition == p && r.message.text == x
  | _ => false

namespace Topic
variable {t u : Topic} {c d : Call} {p q : UInt16} {i : Nat} {e : Effect} {hash : Request → Nat}

theorem finished_kept (hs : t.step hash a = some u) (hc : t.calls[i]? = some c)
    (hf : c.pc = .finished r) : u.calls[i]? = some c := by
  obtain ⟨client, op, -, -, -, rfl⟩ | ⟨j, d, pc, e, -, hd, hn, rfl⟩ := step_cases hs
  · exact calls_invoked.2 (.inl hc)
  · have hij : i ≠ j := by
      rintro rfl
      obtain rfl := Option.some.inj (hc.symm.trans hd)
      exact hn.unfinished hf
    exact calls_advanced_ne hd hij hc

theorem finished_kept_of_exec (hr : exec (step hash) t acts = some u)
    (hc : t.calls[i]? = some c) (hf : c.pc = .finished r) : u.calls[i]? = some c :=
  exec_invariant (I := fun t => t.calls[i]? = some c) (fun _ _ _ h hs => finished_kept hs h hf)
    hc hr

/-- The calls of a topic are those that were made on it, in order. -/
theorem openings_of_exec (hr : exec (step hash) t acts = some u) :
    u.calls.map Call.opening = t.calls.map Call.opening ++ acts.filterMap TopicAction.opening := by
  induction acts generalizing t with
  | nil =>
    cases hr
    rw [List.filterMap_nil, List.append_nil]
  | cons a acts ih =>
    obtain ⟨v, hs, hr⟩ := exec_cons_some.1 hr
    rw [ih hr]
    obtain ⟨client, op, rfl, -, -, rfl⟩ | ⟨i, c, pc, e, ha, hc, -, rfl⟩ := step_cases hs
    · simp [invoked, emit, Call.opening, TopicAction.opening]
    · have hnone : a.opening = none := by rcases ha with rfl | ⟨kept, rfl⟩ <;> rfl
      have hset : t.calls.set i c = t.calls := by
        obtain ⟨hi, rfl⟩ := List.getElem?_eq_some_iff.1 hc
        exact List.set_getElem_self hi
      have hsame : (t.calls.map Call.opening).set i (Call.opening { c with pc := pc }) =
          t.calls.map Call.opening := by
        change (t.calls.map Call.opening).set i c.opening = _
        rw [← List.map_set, hset]
      rw [List.filterMap_cons_none hnone, advanced, setPc, List.map_set, perform_calls, hsame]

/-- Where the messages of the pushes and of the answers come from. -/
structure Sourced (t : Topic) : Prop where
  sources : ∀ p, ∀ m ∈ t.pushed p, ∃ c r padding, t.calls[m.origin]? = some c ∧
    c.partition = p ∧ c.operation = .push r padding ∧ r.message.text = m.text
  answers : ∀ (i : Nat) (c : Call) (m : Message), t.calls[i]? = some c →
    c.pc = .finished (.message (some m)) → m ∈ t.pushed c.partition

theorem Next.appends_text (hn : Next t i c pc e) (hm : m ∈ e.appends) :
    ∃ r padding, c.operation = .push r padding ∧ r.message.text = m.text := by
  cases hn with
  | push hpc hop =>
    obtain rfl := List.mem_singleton.1 hm
    exact ⟨_, _, hop, rfl⟩
  | _ => cases hm

theorem Next.answered (hn : Next t i c (.finished (.message a)) e)
    (hs : c.Sound (t.queue c.partition)) : a = (t.queue c.partition).head? := by
  obtain ⟨client, op, p, pc⟩ := c
  cases hn with
  | answerRead hpc =>
    cases hpc
    cases op with
    | push => exact hs.elim
    | read =>
      exact Answer.message.inj (Option.some.inj hs)
    | remove =>
      obtain ⟨ha, -⟩ := hs
      cases ha
  | answerWrite hpc =>
    cases hpc
    cases op with
    | push => cases hs
    | read => exact hs.elim
    | remove => rcases hs with hs | ⟨hs, -⟩ <;> cases hs

theorem Sourced.invoked (h : Sourced t) : Sourced (t.invoked client op p) where
  sources := by
    intro q m hm
    rw [invoked_pushed] at hm
    obtain ⟨c, r, padding, hc, hrest⟩ := h.sources q m hm
    exact ⟨c, r, padding, calls_invoked.2 (.inl hc), hrest⟩
  answers := by
    intro i c m hc hf
    rw [invoked_pushed]
    rcases calls_invoked.1 hc with hc | ⟨-, rfl⟩
    · exact h.answers i c m hc hf
    · cases op <;> cases hf

theorem Sourced.advanced (h : Sourced t) (hco : Coherent t) (ha : Accounted t)
    (hc : t.calls[i]? = some c) (hn : Next t i c pc e) : Sourced (t.advanced i c pc e) where
  sources := by
    intro p m hm
    rw [pushed_advanced] at hm
    rcases List.mem_append.1 hm with hm | hm
    · obtain ⟨d, r, padding, hd, hp, hop, hx⟩ := h.sources p m hm
      by_cases hi : m.origin = i
      · have hdc : d = c := Option.some.inj (hd.symm.trans (hi.symm ▸ hc))
        subst hdc
        exact ⟨_, r, padding, (calls_advanced hc).2 (.inl ⟨hi, rfl⟩), hp, hop, hx⟩
      · exact ⟨d, r, padding, calls_advanced_ne hc hi hd, hp, hop, hx⟩
    · split at hm
      · rename_i hp
        obtain ⟨ho, -⟩ := hn.appends hm
        obtain ⟨r, padding, hop, hx⟩ := hn.appends_text hm
        exact ⟨_, r, padding, (calls_advanced hc).2 (.inl ⟨ho, rfl⟩), hp, hop, hx⟩
      · cases hm
  answers := by
    intro j d m hd hf
    rw [pushed_advanced]
    apply List.mem_append_left
    rcases (calls_advanced hc).1 hd with ⟨rfl, rfl⟩ | ⟨-, hd⟩
    · obtain rfl : pc = .finished (.message (some m)) := hf
      rw [ha.conserved]
      exact List.mem_append_right _
        (List.mem_of_head? (hn.answered (hco.sound j c hc)).symm)
    · exact h.answers j d m hd hf

theorem sourced_init (n : Nat) : Sourced (init n) where
  sources := by
    intro p m hm
    cases hm
  answers := by
    intro i c m hc
    cases hc

theorem sourced_of_exec (hr : exec (step hash) (init n) acts = some t) : Sourced t := by
  have hinit : (Coherent (init n) ∧ Accounted (init n)) ∧ Sourced (init n) :=
    ⟨⟨coherent_init n, accounted_init n⟩, sourced_init n⟩
  refine (exec_invariant (I := fun t => (Coherent t ∧ Accounted t) ∧ Sourced t) ?_ hinit hr).2
  intro t a u ⟨hca, h⟩ hs
  refine ⟨accounted_step hca hs, ?_⟩
  obtain ⟨client, op, -, -, -, rfl⟩ | ⟨i, c, pc, e, -, hc, hn, rfl⟩ := step_cases hs
  · exact h.invoked
  · exact h.advanced hca.1 hca.2 hc hn

end Topic

/-- A topic and the calls that have come back to their callers. A call has its answer when it
releases its lock, and it returns in a step of its own after that. -/
structure Delivery where
  topic : Topic
  returned : List Nat := []
  deriving DecidableEq, Repr

inductive DeliveryAction where
  | call (a : TopicAction)
  | resume (i : Nat)
  deriving DecidableEq, Repr

def DeliveryAction.onTopic : DeliveryAction → Option TopicAction
  | .call a => some a
  | .resume _ => none

def pushes (acts : List DeliveryAction) : List Request :=
  ((acts.filterMap DeliveryAction.onTopic).filterMap TopicAction.opening).filterMap fun o =>
    o.2.pushRequest

/-- Two pushes do not put one text on one partition. -/
def TextsDiffer (hash : Request → Nat) (n : Nat) (r s : Request) : Prop :=
  ∀ padding p, (Operation.push r padding).partitionIdx hash n = p →
    (Operation.push s padding).partitionIdx hash n = p → p.toNat < n →
      r.message.text ≠ s.message.text

theorem TextsDiffer.symm {hash : Request → Nat} (h : TextsDiffer hash n r s) :
    TextsDiffer hash n s r :=
  fun padding p hs hr hp => (h padding p hr hs hp).symm

namespace Delivery
variable {s s' : Delivery} {t u : Topic} {p q : UInt16} {hash : Request → Nat}

def init (partitionsCount : Nat) : Delivery := { topic := Topic.init partitionsCount }

def step (hash : Request → Nat) (s : Delivery) : DeliveryAction → Option Delivery
  | .call a => (s.topic.step hash a).map fun t => { s with topic := t }
  | .resume i =>
    if s.topic.calls[i]?.any (fun c => c.pc.isFinished) = true ∧ i ∉ s.returned then
      some { s with returned := i :: s.returned }
    else none

/-- How many reads of a client on a partition have come back to it with the text. -/
def readsBy (s : Delivery) (client : Nat) (p : UInt16) (x : Text) : Nat :=
  s.returned.countP fun i => s.topic.calls[i]?.any (Call.reads client p x)

/-- A client calls `remove` with a message only when its own reads on the partition have
returned it more often than it has called `remove` with it. -/
def ReadsBeforeRemoves (s : Delivery) : DeliveryAction → Prop
  | .call (.invoke client (.remove r _)) =>
    s.topic.calls.countP (Call.removes client r.partitionId r.message.text) <
      s.readsBy client r.partitionId r.message.text
  | _ => True

instance (s : Delivery) (a : DeliveryAction) : Decidable (ReadsBeforeRemoves s a) :=
  match a with
  | .call (.invoke _ (.remove _ _)) => inferInstanceAs (Decidable (_ < _))
  | .call (.invoke _ (.push _ _)) | .call (.invoke _ (.read _)) | .call (.advance _)
  | .call (.failStore _ _) | .resume _ => inferInstanceAs (Decidable True)

/-- A call of the kind has come back to its caller. -/
def Returned (s : Delivery) (P : Call → Prop) : Prop :=
  ∃ i ∈ s.returned, ∃ c, s.topic.calls[i]? = some c ∧ P c

def HasReturned (s : Delivery) (p : UInt16) (m : Message) : Prop :=
  s.Returned fun c => c.partition = p ∧ c.pc = .finished (.message (some m))

/-- Every message taken out has been returned by a read. Where this holds in every state of a run,
the read had returned before the message was taken out. -/
def AtLeastOnce (s : Delivery) : Prop := ∀ p, ∀ m ∈ s.topic.popped p, s.HasReturned p m

theorem step_cases (h : s.step hash a = some s') :
    (∃ b, a = .call b ∧ s.topic.step hash b = some s'.topic ∧ s'.returned = s.returned) ∨
    ∃ i, a = .resume i ∧ s'.topic = s.topic ∧ s'.returned = i :: s.returned := by
  cases a with
  | call b =>
    obtain ⟨t, ht, rfl⟩ := Option.map_eq_some_iff.1 h
    exact .inl ⟨b, rfl, ht, rfl⟩
  | resume i =>
    simp only [step, Option.ite_none_right_eq_some, Option.some.injEq] at h
    obtain ⟨-, rfl⟩ := h
    exact .inr ⟨i, rfl, rfl, rfl⟩

theorem exec_topic (hr : exec (step hash) s acts = some s') :
    exec (Topic.step hash) s.topic (acts.filterMap DeliveryAction.onTopic) = some s'.topic := by
  refine exec_project (I := fun _ => True) (C := fun _ _ => True) (f := Delivery.topic)
    (fun _ _ _ _ _ _ => trivial) ?_ ?_ trivial (allSteps_true _ _) hr
  · intro s a s' _ _ hs hg
    obtain ⟨b, rfl, -⟩ | ⟨i, rfl, ht, -⟩ := step_cases hs
    · cases hg
    · exact ht
  · intro s a s' b _ _ hs hg
    obtain ⟨b', rfl, ht, -⟩ | ⟨i, rfl, -⟩ := step_cases hs
    · cases hg
      exact ht
    · cases hg

theorem Returned.step {P : Call → Prop} (hP : ∀ c, P c → ∃ a, c.pc = .finished a)
    (h : s.Returned P) (hs : s.step hash a = some s') : s'.Returned P := by
  obtain ⟨i, hi, c, hc, hPc⟩ := h
  obtain ⟨r, hf⟩ := hP c hPc
  obtain ⟨b, rfl, ht, hret⟩ | ⟨j, rfl, ht, hret⟩ := step_cases hs
  · exact ⟨i, hret ▸ hi, c, Topic.finished_kept ht hc hf, hPc⟩
  · exact ⟨i, hret ▸ List.mem_cons_of_mem j hi, c, ht ▸ hc, hPc⟩

theorem HasReturned.step (h : s.HasReturned p m) (hs : s.step hash a = some s') :
    s'.HasReturned p m :=
  Returned.step (fun _ hc => ⟨_, hc.2⟩) h hs

def TextReturned (s : Delivery) (p : UInt16) (x : Text) : Prop :=
  ∃ m, s.HasReturned p m ∧ m.text = x

theorem readsBy_pos : 0 < s.readsBy client p x ↔
    s.Returned fun c => Call.reads client p x c = true := by
  simp only [readsBy, List.countP_pos_iff, Option.any_eq_true, Returned]

theorem textReturned_of_readsBy (h : 0 < s.readsBy client p x) : s.TextReturned p x := by
  obtain ⟨i, hi, c, hc, hread⟩ := readsBy_pos.1 h
  rw [Call.reads] at hread
  split at hread
  · rename_i m hf
    simp only [Bool.and_eq_true, beq_iff_eq] at hread
    exact ⟨m, ⟨i, hi, c, hc, hread.1.2, hf⟩, hread.2⟩
  · cases hread

theorem TextReturned.step (h : s.TextReturned p x) (hs : s.step hash a = some s') :
    s'.TextReturned p x := by
  obtain ⟨m, hm, hx⟩ := h
  exact ⟨m, hm.step hs, hx⟩

/-- The text of each remove, and with it the text of each message taken out, has been returned by
a read of the partition. -/
structure TextsRead (s : Delivery) : Prop where
  coherent : Topic.Coherent s.topic
  removes : ∀ (i : Nat) (c : Call) (r : Request) (padding : Padding),
    s.topic.calls[i]? = some c → c.operation = .remove r padding →
      s.TextReturned c.partition r.message.text
  popped : ∀ p, ∀ m ∈ s.topic.popped p, s.TextReturned p m.text

theorem textsRead_init (n : Nat) : TextsRead (init n) where
  coherent := Topic.coherent_init n
  removes := by
    intro i c r padding hc
    cases hc
  popped := by
    intro p m hm
    cases hm

theorem removes_invoked {op : Operation} {i : Nat} {c : Call} (h : TextsRead s)
    (hcond : ReadsBeforeRemoves s (.call (.invoke client op)))
    (hc : (s.topic.invoked client op (op.partitionIdx hash size)).calls[i]? = some c)
    (hop : c.operation = .remove r padding) : s.TextReturned c.partition r.message.text := by
  rcases Topic.calls_invoked.1 hc with hc | ⟨-, rfl⟩
  · exact h.removes i c r padding hc hop
  · cases hop
    exact textReturned_of_readsBy (Nat.zero_lt_of_lt hcond)

theorem popped_text {c : Call} (h : TextsRead s) (hc : s.topic.calls[i]? = some c)
    (hn : Topic.Next s.topic i c pc e) (hm : m ∈ e.drops (s.topic.queue c.partition)) :
    s.TextReturned c.partition m.text := by
  cases hn with
  | @pop r padding hpc hop =>
    have hs := h.coherent.sound i c hc
    rw [Call.Sound, hop, hpc] at hs
    have hhead : (s.topic.queue c.partition).head? = some m := Option.mem_toList.1 hm
    have hx : m.text = r.message.text := Option.some.inj ((headText_of_head hhead).symm.trans hs)
    rw [hx]
    exact h.removes i c r padding hc hop
  | _ => cases hm

theorem TextsRead.step (h : TextsRead s) (hcond : ReadsBeforeRemoves s a)
    (hs : s.step hash a = some s') : TextsRead s' := by
  obtain ⟨b, rfl, ht, -⟩ | ⟨i, rfl, ht, -⟩ := step_cases hs
  · obtain ⟨client, op, rfl, -, -, hu⟩ | ⟨i, c, pc, e, -, hc, hn, hu⟩ := Topic.step_cases ht
    · constructor
      case coherent => exact h.coherent.step ht
      case removes =>
        intro j d r padding hd hop
        exact (removes_invoked h hcond (hu ▸ hd) hop).step hs
      case popped =>
        intro p m hm
        rw [hu, Topic.invoked_popped] at hm
        exact (h.popped p m hm).step hs
    · constructor
      case coherent => exact h.coherent.step ht
      case removes =>
        intro j d r padding hd hop
        rw [hu] at hd
        rcases (Topic.calls_advanced hc).1 hd with ⟨rfl, rfl⟩ | ⟨-, hd⟩
        · exact (h.removes j c r padding hc hop).step hs
        · exact (h.removes j d r padding hd hop).step hs
      case popped =>
        intro p m hm
        rw [hu, Topic.popped_advanced] at hm
        rcases List.mem_append.1 hm with hm | hm
        · exact (h.popped p m hm).step hs
        · split at hm
          · rename_i hp
            subst hp
            exact (popped_text h hc hn hm).step hs
          · cases hm
  · constructor
    case coherent => exact ht ▸ h.coherent
    case removes =>
      intro j d r padding hd hop
      exact (h.removes j d r padding (ht ▸ hd) hop).step hs
    case popped =>
      intro p m hm
      exact (h.popped p m (ht ▸ hm)).step hs

theorem pushes_calls (hr : exec (step hash) (init n) acts = some s) :
    s.topic.calls.filterMap (fun c => c.operation.pushRequest) = pushes acts := by
  have hops := Topic.openings_of_exec (exec_topic hr)
  have hmap := congrArg (List.filterMap fun o : Nat × Operation => o.2.pushRequest) hops
  rw [List.filterMap_map, List.filterMap_append] at hmap
  exact hmap

/-- Where no two pushes of a run put one text on one partition, a text on a partition names its
message. -/
theorem message_of_text (hr : exec (step hash) (init n) acts = some s)
    (hd : (pushes acts).Pairwise (TextsDiffer hash n)) (hm : m ∈ s.topic.pushed p)
    (hm' : m' ∈ s.topic.pushed p) (hx : m.text = m'.text) : m = m' := by
  have hrt := exec_topic hr
  have hsrc := (Topic.sourced_of_exec hrt).sources
  obtain ⟨c, r, padding, hc, hcp, hop, hrx⟩ := hsrc p m hm
  obtain ⟨d, r', padding', hd', hdp, hop', hrx'⟩ := hsrc p m' hm'
  have hidx {i : Nat} {c : Call} {r : Request} {padding : Padding}
      (hc : s.topic.calls[i]? = some c) (hcp : c.partition = p)
      (hop : c.operation = .push r padding) (padding' : Padding) :
      (Operation.push r padding').partitionIdx hash n = p := by
    have hplaced := Topic.placed_of_exec hrt i c hc
    rw [hcp, hop, Topic.storage_length_of_exec hrt] at hplaced
    exact hplaced.symm
  have hp : p.toNat < n := by
    rw [← hcp, ← Topic.storage_length_of_exec hrt]
    exact (Topic.coherent_of_exec hrt).inRange _ c hc
  by_contra hne
  have hij : m.origin ≠ m'.origin := by
    intro ho
    apply hne
    cases m
    cases m'
    cases ho
    cases hx
    rfl
  have hpush : c.operation.pushRequest = some r := by rw [hop]; rfl
  have hpush' : d.operation.pushRequest = some r' := by rw [hop']; rfl
  rw [← pushes_calls hr, List.pairwise_filterMap, List.pairwise_iff_getElem] at hd
  obtain ⟨hi, rfl⟩ := List.getElem?_eq_some_iff.1 hc
  obtain ⟨hj, rfl⟩ := List.getElem?_eq_some_iff.1 hd'
  have hdiffer : TextsDiffer hash n r r' := by
    rcases Nat.lt_or_gt_of_ne hij with hlt | hgt
    · exact hd _ _ hi hj hlt r hpush r' hpush'
    · exact (hd _ _ hj hi hgt r' hpush' r hpush).symm
  exact hdiffer padding p (hidx hc hcp hop padding) (hidx hd' hdp hop' padding) hp
    (by rw [hrx, hrx', hx])

/-- With the discipline of the clients, distinct texts are enough. -/
theorem delivered_of_differ (hr : exec (step hash) (init n) acts = some s)
    (hc : AllSteps (step hash) ReadsBeforeRemoves (init n) acts)
    (hd : (pushes acts).Pairwise (TextsDiffer hash n)) : AtLeastOnce s := by
  intro p m hm
  have hrt := exec_topic hr
  obtain ⟨m', hret, hx⟩ := (exec_invariant_of_allSteps (fun _ _ _ h hc hs => h.step hc hs)
    (textsRead_init n) hc hr).popped p m hm
  obtain ⟨i, hi, c, hci, hcp, hf⟩ := hret
  have hm' : m' ∈ s.topic.pushed p := hcp ▸ (Topic.sourced_of_exec hrt).answers i c m' hci hf
  have hmp : m ∈ s.topic.pushed p := by
    rw [(Topic.accounted_of_exec hrt).conserved]
    exact List.mem_append_left _ hm
  rw [message_of_text hr hd hmp hm' hx.symm]
  exact ⟨i, hi, c, hci, hcp, hf⟩

end Delivery
end Noctua
