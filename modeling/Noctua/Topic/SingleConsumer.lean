import Noctua.Topic.Trace

namespace Noctua
open Transition
set_option autoImplicit true

inductive Phase where
  | idle
  | reading
  | holding (m : Message)
  | removing (m : Message)
  | taken
  deriving DecidableEq, Repr

structure Consumer where
  phase : Phase := .idle
  removed : List Message := []
  deriving DecidableEq, Repr

def Consumer.observe (v : Consumer) (x : TraceEvent) : Consumer :=
  match v.phase, x with
  | .idle, .invoke _ (.read _) => { v with phase := .reading }
  | .reading, .respond _ (.read _) (.message (some m)) => { v with phase := .holding m }
  | .reading, .respond _ (.read _) _ => { v with phase := .idle }
  | .holding m, .invoke _ (.remove _ _) => { v with phase := .removing m }
  | .removing m, .popped _ => ⟨.taken, v.removed ++ [m]⟩
  | .removing _, .respond _ (.remove _ _) _ => { v with phase := .idle }
  | .taken, .respond _ (.remove _ _) _ => { v with phase := .idle }
  | _, _ => v

/-- The calls that the consumer makes: `read` when it has no message, and `remove` with exactly
the message it has read. -/
def Phase.permits : Phase → Operation → Bool
  | _, .push _ _ => true
  | .idle, .read _ => true
  | .holding m, .remove r _ => m.text == r.message.text
  | _, _ => false

def Operation.isPush : Operation → Bool
  | .push _ _ => true
  | _ => false

/-- A `remove` on its way to the queue: nothing has turned it back. -/
def Pc.approaching : Pc → Bool
  | .releaseRead (some _) | .releaseWrite _ | .finished _ => false
  | _ => true

def Phase.Runs (phase : Phase) (c : Call) : Prop :=
  match phase with
  | .reading => ∃ p, c.operation = .read p
  | .removing m => c.pc.approaching = true ∧ ∃ r padding,
      c.operation = .remove r padding ∧ m.text = r.message.text
  | .taken => c.pc = .releaseWrite (.removed true) ∧ ∃ r padding, c.operation = .remove r padding
  | .idle | .holding _ => False

def Phase.pending : Phase → Option Message
  | .holding m | .removing m => some m
  | _ => none

def Effect.quiet : Effect → Bool
  | .none | .store _ | .failStore _ _ => true
  | _ => false

namespace Topic
variable {t u : Topic} {c d : Call} {p q : UInt16} {e : Effect} {hash : Request → Nat}

def consumer (t : Topic) (p : UInt16) : Consumer := (t.eventsAt p).foldl Consumer.observe {}

def SingleConsumer (hash : Request → Nat) (p : UInt16) (t : Topic) : TopicAction → Prop
  | .invoke _ op => op.partitionIdx hash t.storage.length = p →
      (t.consumer p).phase.permits op = true
  | _ => True

instance (hash : Request → Nat) (p : UInt16) (t : Topic) (a : TopicAction) :
    Decidable (SingleConsumer hash p t a) :=
  match a with
  | .invoke _ _ => inferInstanceAs (Decidable (_ → _))
  | .advance _ => inferInstanceAs (Decidable True)
  | .failStore _ _ => inferInstanceAs (Decidable True)

structure DeliversInOrder (p : UInt16) (t : Topic) : Prop where
  removesSucceed : ∀ c ∈ t.calls, c.partition = p → c.operation.isRemove = true →
    ∀ a, c.pc = .finished a → a = .removed true
  frontsPresent : ∀ c ∈ t.calls, c.partition = p → ¬ t.DereferencesNull c
  lossless : (t.consumer p).removed ++ t.queue p = t.pushed p

theorem consumer_advanced_self : (t.advanced i c pc e).consumer c.partition =
    (t.emitted i c e).foldl Consumer.observe (t.consumer c.partition) := by
  rw [consumer, eventsAt_advanced_self, List.foldl_append, consumer]

theorem consumer_answered : (t.advanced i c pc (.respond a)).consumer c.partition =
    (t.consumer c.partition).observe (.respond i c.operation a) := consumer_advanced_self

theorem consumer_advanced_ne (h : p ≠ c.partition) :
    (t.advanced i c pc e).consumer p = t.consumer p := by
  rw [consumer, eventsAt_advanced_ne h, consumer]

theorem consumer_invoked (t : Topic) (client : Nat) (op : Operation) (p q : UInt16) :
    (t.invoked client op p).consumer q =
      if p = q then (t.consumer q).observe (.invoke t.calls.length op) else t.consumer q := by
  rw [consumer, eventsAt_invoked, List.foldl_append]
  split <;> rfl

theorem observe_stored (v : Consumer) (d : Wall.WallData) : v.observe (.stored d) = v := by
  obtain ⟨phase, removed⟩ := v
  cases phase <;> rfl

theorem observe_pushed (v : Consumer) (m : Message) : v.observe (.pushed m) = v := by
  obtain ⟨phase, removed⟩ := v
  cases phase <;> rfl

theorem observe_push_call (v : Consumer) (h : op.isPush = true) :
    v.observe (.invoke i op) = v ∧ v.observe (.respond i op a) = v := by
  obtain ⟨phase, removed⟩ := v
  cases op with
  | push => cases phase <;> exact ⟨rfl, rfl⟩
  | _ => cases h

theorem observe_answer {v : Consumer} (hv : v.phase = .reading) (hop : op = .read pid) :
    v.observe (.respond i op (.message m)) = ⟨m.elim .idle .holding, v.removed⟩ := by
  obtain ⟨phase, removed⟩ := v
  cases hv
  cases hop
  cases m <;> rfl

theorem pending_answer (m : Option Message) : (m.elim .idle .holding : Phase).pending = m := by
  cases m <;> rfl

theorem observe_popped {v : Consumer} (hv : v.phase = .removing m) :
    v.observe (.popped m') = ⟨.taken, v.removed ++ [m]⟩ := by
  obtain ⟨phase, removed⟩ := v
  cases hv
  rfl

theorem observe_removed {v : Consumer} (hv : v.phase = .taken) (hop : op = .remove r padding) :
    v.observe (.respond i op a) = ⟨.idle, v.removed⟩ := by
  obtain ⟨phase, removed⟩ := v
  cases hv
  cases hop
  rfl

theorem pending_of_check {phase : Phase} (h : phase.Runs c)
    (hr : c.operation.isRemove = true) (hpc : c.pc = .inspect ∨ c.pc = .recheck) :
    ∃ m, phase.pending = some m := by
  cases phase with
  | idle | holding => exact h.elim
  | reading =>
    obtain ⟨pid, hop⟩ := h
    rw [hop] at hr
    cases hr
  | removing m => exact ⟨m, rfl⟩
  | taken =>
    rw [h.1] at hpc
    rcases hpc with hpc | hpc <;> cases hpc

theorem observe_permitted {v : Consumer} (hp : v.phase.permits op = true)
    (hop : op.isPush = false) :
    (∀ i, (v.observe (.invoke i op)).removed = v.removed) ∧
      (∀ i, (v.observe (.invoke i op)).phase.pending = v.phase.pending) ∧
      (∀ c, ¬ v.phase.Runs c) ∧
      ∀ i client q, (v.observe (.invoke i op)).phase.Runs ⟨client, op, q, op.start⟩ := by
  obtain ⟨phase, removed⟩ := v
  cases op with
  | push => cases hop
  | read pid =>
    cases phase with
    | idle => exact ⟨fun _ => rfl, fun _ => rfl, fun _ => id, fun _ _ _ => ⟨pid, rfl⟩⟩
    | _ => cases hp
  | remove r padding =>
    cases phase with
    | holding m =>
      have he : m.text = r.message.text := beq_iff_eq.1 hp
      exact ⟨fun _ => rfl, fun _ => rfl, fun _ => id, fun _ _ _ => ⟨rfl, r, padding, rfl, he⟩⟩
    | _ => cases hp

theorem observe_quiet (v : Consumer) (h : e.quiet = true) :
    (t.emitted i c e).foldl Consumer.observe v = v := by
  cases e with
  | store d =>
    simp only [emitted]
    split
    · rfl
    · exact observe_stored v d
  | none | failStore => rfl
  | _ => cases h

theorem Effect.onQueue_quiet (h : e.quiet = true) (q : List Message) : e.onQueue q = q := by
  cases e <;> first | rfl | cases h

theorem Effect.drops_quiet (h : e.quiet = true) (q : List Message) : e.drops q = [] := by
  cases e <;> first | rfl | cases h

theorem Next.push_step (hn : Next t i c pc e) (hop : c.operation.isPush = true) :
    (∀ v, (t.emitted i c e).foldl Consumer.observe v = v) ∧ (∀ q, e.drops q = []) ∧
      ∀ q m, q.head? = some m → (e.onQueue q).head? = some m := by
  cases hn with
  | push => exact ⟨fun v => observe_pushed v _, fun _ => rfl, fun q m hq => by
      rw [Effect.onQueue, List.head?_append, hq]; rfl⟩
  | pop hpc hr =>
    rw [hr] at hop
    cases hop
  | answerRead | answerWrite =>
    exact ⟨fun v => (observe_push_call v hop).2, fun _ => rfl, fun _ _ hq => hq⟩
  | store => exact ⟨fun v => observe_quiet v rfl, fun _ => rfl, fun _ _ hq => hq⟩
  | _ => exact ⟨fun _ => rfl, fun _ => rfl, fun _ _ hq => hq⟩

theorem Next.read_step (hn : Next t i c pc e) (hs : c.Sound (t.queue c.partition))
    (hop : c.operation = .read pid) :
    e.quiet = true ∨ pc = .finished (.message (t.queue c.partition).head?) ∧
      e = .respond (.message (t.queue c.partition).head?) := by
  obtain ⟨client, op, p, pc₀⟩ := c
  obtain rfl : op = .read pid := hop
  cases hn with
  | @answerRead a hpc =>
    cases hpc
    have ha : a = .message (t.queue p).head? := Option.some.inj hs
    exact .inr ⟨congrArg Pc.finished ha, congrArg Effect.respond ha⟩
  | answerWrite hpc =>
    cases hpc
    exact hs.elim
  | push hpc hop | pop hpc hop => cases hop
  | _ => exact .inl rfl

theorem Next.remove_step (hn : Next t i c pc e) (hop : c.operation = .remove r padding)
    (ha : c.pc.approaching = true) (hh : headText (t.queue c.partition) = some r.message.text) :
    e.quiet = true ∧ pc.approaching = true ∨ e = .pop ∧ pc = .releaseWrite (.removed true) := by
  obtain ⟨client, op, p, pc₀⟩ := c
  obtain rfl : op = .remove r padding := hop
  cases hn with
  | readFront hpc hop | acquirePush hpc hop | push hpc hop => cases hop
  | rejectFirst hpc hop hq hne | rejectSecond hpc hop hq hne =>
    cases hop
    exact (headText_ne hq hne hh).elim
  | answerRead hpc | answerWrite hpc =>
    cases hpc
    cases ha
  | pop => exact .inr ⟨rfl, rfl⟩
  | _ => exact .inl ⟨rfl, rfl⟩

theorem Next.answer_step (hn : Next t i c pc e) (hpc : c.pc = .releaseWrite a) :
    pc = .finished a ∧ e = .respond a := by
  cases hn with
  | answerWrite h =>
    obtain rfl := Pc.releaseWrite.inj (h.symm.trans hpc)
    exact ⟨rfl, rfl⟩
  | acquireRead h | readFront h | rejectFirst h | passFirst h | answerRead h | releaseRead h
  | acquireRemove h | acquirePush h | rejectSecond h | passSecond h | acquireWall h | store h
  | failStore h | releaseWall h | push h | pop h =>
    rw [hpc] at h
    cases h

structure Served (p : UInt16) (t : Topic) : Prop where
  done : ∀ (i : Nat) (c : Call) (a : Answer), t.calls[i]? = some c → c.partition = p →
    c.operation.isRemove = true → c.pc = .finished a → a = .removed true
  runs : ∀ (i : Nat) (c : Call), t.calls[i]? = some c → c.partition = p →
    c.operation.isPush = false → (∀ a, c.pc ≠ .finished a) → (t.consumer p).phase.Runs c
  alone : ∀ (i j : Nat) (c d : Call), t.calls[i]? = some c → t.calls[j]? = some d →
    c.partition = p → d.partition = p → c.operation.isPush = false →
    d.operation.isPush = false → (∀ a, c.pc ≠ .finished a) → (∀ a, d.pc ≠ .finished a) → i = j
  head : ∀ m, (t.consumer p).phase.pending = some m → (t.queue p).head? = some m
  removed : (t.consumer p).removed = t.popped p

theorem served_init (n : Nat) (p : UInt16) : Served p (init n) where
  done := by
    intro i c a hc
    cases hc
  runs := by
    intro i c hc
    cases hc
  alone := by
    intro i j c d hc
    cases hc
  head := by
    intro m hm
    cases hm
  removed := rfl

theorem Operation.isPush_of_isRemove {op : Operation} (h : op.isRemove = true) :
    op.isPush = false := by
  cases op <;> first | rfl | cases h

theorem Served.frame (h : Served p t) (hcons : u.consumer p = t.consumer p)
    (hpop : u.popped p = t.popped p)
    (hhead : ∀ m, (t.queue p).head? = some m → (u.queue p).head? = some m)
    (hcalls : ∀ (i : Nat) (c : Call), u.calls[i]? = some c → c.partition = p →
      c.operation.isPush = false → t.calls[i]? = some c) : Served p u where
  done i c a hc hp hr :=
    h.done i c a (hcalls i c hc hp (Operation.isPush_of_isRemove hr)) hp hr
  runs i c hc hp hi hf := hcons ▸ h.runs i c (hcalls i c hc hp hi) hp hi hf
  alone i j c d hc hd hcp hdp hci hdi :=
    h.alone i j c d (hcalls i c hc hcp hci) (hcalls j d hd hdp hdi) hcp hdp hci hdi
  head m hm := hhead m (h.head m (hcons ▸ hm))
  removed := by
    rw [hcons, hpop]
    exact h.removed

theorem Served.afterInvoke (h : Served p t) (hq : q = p → (t.consumer p).phase.permits op = true) :
    Served p (t.invoked client op q) := by
  by_cases hnew : q = p ∧ op.isPush = false
  · -- the consumer's own call: it had none under way
    obtain ⟨rfl, hop⟩ := hnew
    obtain ⟨hremoved, hpending, hnone, hruns⟩ := observe_permitted (hq rfl) hop
    have hidle (i : Nat) (c : Call) (hc : t.calls[i]? = some c) (hp : c.partition = q)
        (hcp : c.operation.isPush = false) (hf : ∀ a, c.pc ≠ .finished a) : False :=
      hnone c (h.runs i c hc hp hcp hf)
    have hcons : (t.invoked client op q).consumer q =
        (t.consumer q).observe (.invoke t.calls.length op) := by
      rw [consumer_invoked, if_pos rfl]
    refine ⟨?_, ?_, ?_, ?_, ?_⟩
    · intro i c a hc hp hr ha
      rcases calls_invoked.1 hc with hc | ⟨rfl, rfl⟩
      · exact h.done i c a hc hp hr ha
      · cases op <;> cases ha
    · intro i c hc hp hcp hf
      rcases calls_invoked.1 hc with hc | ⟨rfl, rfl⟩
      · exact (hidle i c hc hp hcp hf).elim
      · rw [hcons]
        exact hruns _ client q
    · intro i j c d hc hd hcp hdp hci hdi hcf hdf
      rcases calls_invoked.1 hc with hc | ⟨rfl, rfl⟩
      · exact (hidle i c hc hcp hci hcf).elim
      · rcases calls_invoked.1 hd with hd | ⟨rfl, rfl⟩
        · exact (hidle j d hd hdp hdi hdf).elim
        · rfl
    · intro m hm
      rw [hcons, hpending] at hm
      exact h.head m hm
    · rw [hcons, hremoved, invoked_popped]
      exact h.removed
  · have hcons : (t.invoked client op q).consumer p = t.consumer p := by
      rw [consumer_invoked]
      split
      · rename_i hqp
        cases hop : op.isPush with
        | true => exact (observe_push_call (a := .pushed) _ hop).1
        | false => exact (hnew ⟨hqp, hop⟩).elim
      · rfl
    apply h.frame hcons (invoked_popped t client op q p) (fun _ hm => hm)
    intro i c hc hp hcp
    rcases calls_invoked.1 hc with hc | ⟨rfl, rfl⟩
    · exact hc
    · exact (hnew ⟨hp, hcp⟩).elim

theorem Served.afterOwn (h : Served c.partition t) (hc : t.calls[i]? = some c)
    (hop : c.operation.isPush = false) (hf : ∀ a, c.pc ≠ .finished a)
    (done : c.operation.isRemove = true → ∀ a, pc = .finished a → a = .removed true)
    (runs : (∀ a, pc ≠ .finished a) →
      ((t.advanced i c pc e).consumer c.partition).phase.Runs { c with pc := pc })
    (head : ∀ m, ((t.advanced i c pc e).consumer c.partition).phase.pending = some m →
      ((t.advanced i c pc e).queue c.partition).head? = some m)
    (removed : ((t.advanced i c pc e).consumer c.partition).removed =
      (t.advanced i c pc e).popped c.partition) :
    Served c.partition (t.advanced i c pc e) where
  done := by
    intro j d a hd hp hr ha
    rcases (calls_advanced hc).1 hd with ⟨rfl, rfl⟩ | ⟨hj, hd⟩
    · exact done hr a ha
    · exact h.done j d a hd hp hr ha
  runs := by
    intro j d hd hp hdp hdf
    rcases (calls_advanced hc).1 hd with ⟨rfl, rfl⟩ | ⟨hj, hd⟩
    · exact runs hdf
    · exact (hj (h.alone j i d c hd hc hp rfl hdp hop hdf hf)).elim
  alone := by
    intro j k x y hx hy hxp hyp hxi hyi hxf hyf
    rcases (calls_advanced hc).1 hx with ⟨rfl, rfl⟩ | ⟨hj, hx⟩
    · rcases (calls_advanced hc).1 hy with ⟨rfl, rfl⟩ | ⟨hk, hy⟩
      · rfl
      · exact (hk (h.alone k j y c hy hc hyp rfl hyi hop hyf hf)).elim
    · exact (hj (h.alone j i x c hx hc hxp rfl hxi hop hxf hf)).elim
  head := head
  removed := removed

theorem unseen_of_quiet (hr : c.partition.toNat < t.storage.length) (hq : e.quiet = true) :
    (t.advanced i c pc e).consumer c.partition = t.consumer c.partition ∧
      (t.advanced i c pc e).queue c.partition = t.queue c.partition ∧
      (t.advanced i c pc e).popped c.partition = t.popped c.partition := by
  constructor
  · rw [consumer_advanced_self, observe_quiet _ hq]
  · constructor
    · rw [advanced_queue_self hr, Effect.onQueue_quiet hq]
    · rw [popped_advanced_self, Effect.drops_quiet hq, List.append_nil]

theorem Served.afterQuiet (h : Served c.partition t) (hr : c.partition.toNat < t.storage.length)
    (hc : t.calls[i]? = some c) (hop : c.operation.isPush = false)
    (hf : ∀ a, c.pc ≠ .finished a) (hq : e.quiet = true)
    (done : c.operation.isRemove = true → ∀ a, pc = .finished a → a = .removed true)
    (runs : (t.consumer c.partition).phase.Runs { c with pc := pc }) :
    Served c.partition (t.advanced i c pc e) := by
  obtain ⟨hconsumer, hqueue, hpopped⟩ := unseen_of_quiet (i := i) hr hq
  apply h.afterOwn hc hop hf done
  · intro _
    rw [hconsumer]
    exact runs
  · intro m hm
    rw [hconsumer] at hm
    rw [hqueue]
    exact h.head m hm
  · rw [hconsumer, hpopped]
    exact h.removed

theorem Served.afterOther (h : Served p t) (hc : t.calls[i]? = some c) (hp : c.partition ≠ p) :
    Served p (t.advanced i c pc e) := by
  apply h.frame (consumer_advanced_ne (Ne.symm hp))
  · rw [popped_advanced, if_neg hp, List.append_nil]
  · intro m hm
    rw [advanced_queue_ne (Ne.symm hp)]
    exact hm
  · intro j d hd hdp _
    rcases (calls_advanced hc).1 hd with ⟨rfl, rfl⟩ | ⟨-, hd⟩
    · exact (hp hdp).elim
    · exact hd

theorem Served.afterPush (h : Served c.partition t)
    (hr : c.partition.toNat < t.storage.length) (hc : t.calls[i]? = some c)
    (hn : Next t i c pc e) (hop : c.operation.isPush = true) :
    Served c.partition (t.advanced i c pc e) := by
  obtain ⟨hobs, hdrops, hhead⟩ := hn.push_step hop
  apply h.frame (consumer_advanced_self.trans (hobs _))
  · rw [popped_advanced_self, hdrops, List.append_nil]
  · intro m hm
    rw [advanced_queue_self hr]
    exact hhead _ m hm
  · intro j d hd _ hdi
    rcases (calls_advanced hc).1 hd with ⟨rfl, rfl⟩ | ⟨-, hd⟩
    · exact absurd (hop.symm.trans hdi) Bool.noConfusion
    · exact hd

theorem Served.afterRead (h : Served c.partition t) (hco : Coherent t)
    (hc : t.calls[i]? = some c) (hn : Next t i c pc e)
    (hphase : (t.consumer c.partition).phase = .reading) (hop : c.operation = .read pid) :
    Served c.partition (t.advanced i c pc e) := by
  have hr := hco.inRange i c hc
  have hf : ∀ a, c.pc ≠ .finished a := fun a => hn.unfinished
  have hip : c.operation.isPush = false := by
    rw [hop]
    rfl
  have hdone : c.operation.isRemove = true → ∀ a, pc = .finished a → a = .removed true := by
    intro hrm
    rw [hop] at hrm
    cases hrm
  rcases hn.read_step (hco.sound i c hc) hop with hq | ⟨rfl, rfl⟩
  · apply h.afterQuiet hr hc hip hf hq hdone
    rw [hphase]
    exact ⟨pid, hop⟩
  · apply h.afterOwn hc hip hf hdone
    · intro hfin
      exact (hfin _ rfl).elim
    · intro m hm
      rw [consumer_answered, observe_answer hphase hop] at hm
      rw [advanced_queue_self hr]
      exact (pending_answer _).symm.trans hm
    · rw [consumer_answered, observe_answer hphase hop, popped_advanced_self]
      exact h.removed.trans (List.append_nil _).symm

/-- The pending message stays at the head until the consumer's `remove` takes it. -/
theorem Served.afterRemove (h : Served c.partition t) (hco : Coherent t)
    (hc : t.calls[i]? = some c) (hn : Next t i c pc e)
    (hphase : (t.consumer c.partition).phase = .removing m) (ha : c.pc.approaching = true)
    (hop : c.operation = .remove r padding) (he : m.text = r.message.text) :
    Served c.partition (t.advanced i c pc e) := by
  have hr := hco.inRange i c hc
  have hf : ∀ a, c.pc ≠ .finished a := fun a => hn.unfinished
  have hip : c.operation.isPush = false := by
    rw [hop]
    rfl
  have hhead : (t.queue c.partition).head? = some m := h.head m (by rw [hphase]; rfl)
  have hh : headText (t.queue c.partition) = some r.message.text :=
    (headText_of_head hhead).trans (congrArg some he)
  rcases hn.remove_step hop ha hh with ⟨hq, ha'⟩ | ⟨rfl, rfl⟩
  · apply h.afterQuiet hr hc hip hf hq
    · rintro - a rfl
      cases ha'
    · rw [hphase]
      exact ⟨ha', r, padding, hop, he⟩
  · have hconsumer : (t.advanced i c (.releaseWrite (.removed true)) .pop).consumer c.partition =
        ⟨.taken, (t.consumer c.partition).removed ++ [m]⟩ := by
      rw [consumer_advanced_self, emitted, hhead]
      exact observe_popped hphase
    apply h.afterOwn hc hip hf
    · intro _ a
      exact Pc.noConfusion
    · intro _
      rw [hconsumer]
      exact ⟨rfl, r, padding, hop⟩
    · intro x hx
      rw [hconsumer] at hx
      cases hx
    · rw [hconsumer, popped_advanced_self, Effect.drops, hhead, ← h.removed]
      rfl

theorem Served.afterAnswer (h : Served c.partition t) (hc : t.calls[i]? = some c)
    (hn : Next t i c pc e) (hphase : (t.consumer c.partition).phase = .taken)
    (hpc : c.pc = .releaseWrite (.removed true)) (hop : c.operation = .remove r padding) :
    Served c.partition (t.advanced i c pc e) := by
  have hf : ∀ a, c.pc ≠ .finished a := fun a => hn.unfinished
  have hip : c.operation.isPush = false := by
    rw [hop]
    rfl
  obtain ⟨rfl, rfl⟩ := hn.answer_step hpc
  apply h.afterOwn hc hip hf
  · intro _ a ha
    exact (Pc.finished.inj ha).symm
  · intro hfin
    exact (hfin _ rfl).elim
  · intro m hm
    rw [consumer_answered, observe_removed hphase hop] at hm
    cases hm
  · rw [consumer_answered, observe_removed hphase hop, popped_advanced_self]
    exact h.removed.trans (List.append_nil _).symm

theorem Served.afterAdvance (h : Served p t) (hco : Coherent t) (hc : t.calls[i]? = some c)
    (hn : Next t i c pc e) : Served p (t.advanced i c pc e) := by
  by_cases hp : c.partition = p
  case neg => exact h.afterOther hc hp
  case pos =>
    subst p
    cases hip : c.operation.isPush with
    | true => exact h.afterPush (hco.inRange i c hc) hc hn hip
    | false =>
      have hr := h.runs i c hc rfl hip fun a => hn.unfinished
      cases hphase : (t.consumer c.partition).phase with
      | idle | holding m =>
        rw [hphase] at hr
        exact hr.elim
      | reading =>
        rw [hphase] at hr
        obtain ⟨pid, hop⟩ := hr
        exact h.afterRead hco hc hn hphase hop
      | removing m =>
        rw [hphase] at hr
        obtain ⟨ha, r, padding, hop, he⟩ := hr
        exact h.afterRemove hco hc hn hphase ha hop he
      | taken =>
        rw [hphase] at hr
        obtain ⟨hpc, r, padding, hop⟩ := hr
        exact h.afterAnswer hc hn hphase hpc hop

theorem served_of_exec (hsteps : AllSteps (step hash) (SingleConsumer hash p) (init n) acts)
    (h : exec (step hash) (init n) acts = some t) : Coherent t ∧ Accounted t ∧ Served p t := by
  refine exec_invariant_of_allSteps (I := fun t => Coherent t ∧ Accounted t ∧ Served p t) ?_
    ⟨coherent_init n, accounted_init n, served_init n p⟩ hsteps h
  rintro t a u ⟨hco, hac, hse⟩ hcond hs
  obtain ⟨client, op, rfl, -, hlt, rfl⟩ | ⟨i, c, pc, e, -, hc, hn, rfl⟩ := step_cases hs
  · exact ⟨hco.invoked hlt, hac.invoked, hse.afterInvoke hcond⟩
  · exact ⟨hco.advanced hc hn, hac.advanced hc (hco.inRange i c hc) hn, hse.afterAdvance hco hc hn⟩

/-- A single consumer loses nothing, in every run: each of its removes succeeds, none meets a
null front, and what it has read and removed, followed by the contents, is what was pushed. -/
theorem delivers_in_order (hsteps : AllSteps (step hash) (SingleConsumer hash p) (init n) acts)
    (h : exec (step hash) (init n) acts = some t) : DeliversInOrder p t := by
  obtain ⟨-, hac, hse⟩ := served_of_exec hsteps h
  constructor
  case removesSucceed =>
    intro c hmem hp hr a ha
    obtain ⟨i, hc⟩ := List.getElem?_of_mem hmem
    exact hse.done i c a hc hp hr ha
  case frontsPresent =>
    rintro c hmem hp ⟨hr, hpc, hq⟩
    obtain ⟨i, hc⟩ := List.getElem?_of_mem hmem
    have hf : ∀ a, c.pc ≠ .finished a := by
      intro a ha
      rw [ha] at hpc
      rcases hpc with hpc | hpc <;> cases hpc
    have hrun := hse.runs i c hc hp (Operation.isPush_of_isRemove hr) hf
    obtain ⟨m, hm⟩ := pending_of_check hrun hr hpc
    rw [hp] at hq
    have hhead := hse.head m hm
    rw [hq] at hhead
    cases hhead
  case lossless =>
    rw [hse.removed]
    exact (hac.conserved p).symm

/-- Two pushes of one text, the second after the consumer has read the first. -/
def deliveryRun : List TopicAction :=
  let r := Request.ofByte 98
  [.invoke 0 (.push r (.replicate 5 0)), .advance 0, .advance 0, .advance 0, .advance 0,
    .advance 0, .advance 0, .invoke 1 (.read 0), .advance 1, .advance 1, .advance 1,
    .invoke 0 (.push r (.replicate 5 0)), .invoke 1 (.remove r (.replicate 5 0)), .advance 3,
    .advance 3, .advance 3, .advance 2, .advance 2, .advance 2, .advance 2, .advance 2,
    .advance 2, .advance 3, .advance 3, .advance 3, .advance 3, .advance 3, .advance 3, .advance 3]

theorem delivers_in_order_two_equal :
    ∃ t, exec (step fun _ => 0) (init 1) deliveryRun = some t ∧ DeliversInOrder 0 t := by
  have hs : (exec (step fun _ => 0) (init 1) deliveryRun).isSome = true := by decide +kernel
  have hsteps : AllSteps (step fun _ => 0) (SingleConsumer (fun _ => 0) 0) (init 1)
      deliveryRun := by decide +kernel
  have ht := (Option.some_get hs).symm
  exact ⟨_, ht, delivers_in_order hsteps ht⟩

end Topic
end Noctua
