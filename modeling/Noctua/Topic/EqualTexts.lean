import Noctua.Topic.Delivery

namespace Noctua
open Transition
set_option autoImplicit true

namespace Topic
variable {t u : Topic} {c c₀ : Call} {p : UInt16} {e : Effect} {hash : Request → Nat}

theorem Next.reads (hn : Next t i c pc e) (hop : c.operation = .read pid) :
    e.onQueue (t.queue c.partition) = t.queue c.partition := by
  cases hn with
  | push hpc hop' | pop hpc hop' =>
    rw [hop] at hop'
    cases hop'
  | _ => rfl

/-- A read that runs alone answers the head of its partition and leaves the partition alone. -/
theorem Working.finish_read (h : Working t₀ i c₀ t pc) (hop : c₀.operation = .read pid)
    (hq : t.queue c₀.partition = t₀.queue c₀.partition)
    (ha : ∀ a, pc = .finished a → a = .message (t₀.queue c₀.partition).head?)
    (hf : Topic.finish hash lost i fuel t = some (u, a)) :
    u.queue c₀.partition = t₀.queue c₀.partition ∧
      a = .message (t₀.queue c₀.partition).head? := by
  induction fuel generalizing t pc with
  | zero => cases hf
  | succ fuel ih =>
    rw [Topic.finish, h.call, Option.bind_some] at hf
    split at hf
    · rename_i hpc
      cases hf
      exact ⟨hq, ha _ hpc⟩
    · obtain ⟨v, hv, hf⟩ := Option.bind_eq_some_iff.1 hf
      obtain ⟨pc', e, hn, rfl⟩ := h.step_cases hv
      refine ih (h.advanced hn) ?_ ?_ hf
      · rw [advanced_queue_self (c := { c₀ with pc := pc }) (h.coherent.inRange i _ h.call)]
        exact (hn.reads hop).trans hq
      · rintro a rfl
        have hs := (h.advanced hn).coherent.sound i _ (h.advanced hn).call
        rw [Call.Sound, hop] at hs
        obtain ⟨m, rfl⟩ := hs
        have hm : m = (t.queue c₀.partition).head? := hn.answered (h.coherent.sound i _ h.call)
        rw [hm, hq]

theorem complete_call (hco : Coherent t) (hq : Quiet t)
    (h : complete hash lost t client op = some (u, a)) : u.calls[t.calls.length]? =
      some ⟨client, op, op.partitionIdx hash t.storage.length, .finished a⟩ := by
  obtain ⟨v, hs, hf⟩ := Option.bind_eq_some_iff.1 h
  obtain ⟨hp, rfl⟩ := invoke_cases hs
  exact ((working_invoked hco hq hp).finish hf).call

theorem complete_read (hco : Coherent t) (hq : Quiet t)
    (h : complete hash lost t client (.read p) = some (u, a)) :
    u.queue p = t.queue p ∧ a = .message (t.queue p).head? := by
  obtain ⟨v, hs, hf⟩ := Option.bind_eq_some_iff.1 h
  obtain ⟨hp, rfl⟩ := invoke_cases hs
  exact (working_invoked hco hq hp).finish_read rfl rfl (fun _ h => by cases h) hf

theorem Completed.size (h : Completed t op p u a) : u.storage.length = t.storage.length := by
  obtain ⟨q, -, hq⟩ := h.contents
  have hlen := congrArg List.length hq
  rwa [Topic.contents, Topic.contents, List.length_set, List.length_map, List.length_map] at hlen

theorem Completed.texts (h : Completed t op p u a) :
    Fifo.apply (t.texts p) op.fifo = (u.texts p, a.fifo) := by
  obtain ⟨q, hq, hu⟩ := h.contents
  have hp : p.toNat < t.contents.length := by
    rw [Topic.contents, List.length_map]
    exact h.inRange
  rw [Topic.texts, Topic.texts, ← contents_getD, ← contents_getD, hu, List.getD_eq_getElem?_getD,
    List.getD_eq_getElem?_getD, List.getElem?_set_self hp, ← List.getD_eq_getElem?_getD]
  exact hq

theorem pushed_kept (hr : exec (step hash) t acts = some u) (hm : m ∈ t.pushed p) :
    m ∈ u.pushed p := by
  refine exec_invariant (I := fun t => m ∈ t.pushed p) ?_ hm hr
  intro t a u hm hs
  obtain ⟨client, op, -, -, -, rfl⟩ | ⟨i, c, pc, e, -, -, -, rfl⟩ := step_cases hs
  · rwa [invoked_pushed]
  · rw [pushed_advanced]
    exact List.mem_append_left _ hm

end Topic

namespace Delivery
variable {s s' s'' : Delivery} {t u : Topic} {p q : UInt16} {hash : Request → Nat}

/-- A run between two states in which the clients keep to their discipline. -/
structure Permitted (hash : Request → Nat) (s : Delivery) (acts : List DeliveryAction)
    (s' : Delivery) : Prop where
  runs : exec (step hash) s acts = some s'
  reads : AllSteps (step hash) ReadsBeforeRemoves s acts

theorem Permitted.cons (hs : s.step hash a = some s') (hok : ReadsBeforeRemoves s a)
    (h : Permitted hash s' acts s'') : Permitted hash s (a :: acts) s'' where
  runs := exec_cons_some.2 ⟨s', hs, h.runs⟩
  reads := by
    refine ⟨hok, fun u hu => ?_⟩
    obtain rfl := Option.some.inj (hs.symm.trans hu)
    exact h.reads

theorem Permitted.append (h : Permitted hash s acts s') (h' : Permitted hash s' acts' s'') :
    Permitted hash s (acts ++ acts') s'' where
  runs := by
    rw [exec_append, h.runs]
    exact h'.runs
  reads := h.reads.append h.runs h'.reads

theorem step_call (h : s.topic.step hash a = some t) :
    s.step hash (.call a) = some { s with topic := t } := by
  rw [step, h]
  rfl

theorem permitted_finish (hf : Topic.finish hash none i fuel s.topic = some (u, a)) :
    ∃ k, Permitted hash s (.replicate k (.call (.advance i))) { s with topic := u } := by
  induction fuel generalizing s with
  | zero => cases hf
  | succ fuel ih =>
    obtain ⟨c, -, hf⟩ := Option.bind_eq_some_iff.1 hf
    split at hf
    · cases hf
      exact ⟨0, rfl, trivial⟩
    · rename_i hpc
      obtain ⟨v, hv, hf⟩ := Option.bind_eq_some_iff.1 hf
      have hadv : s.topic.step hash (.advance i) = some v := by
        cases hc : c.pc <;> rw [hc] at hv <;> exact hv
      obtain ⟨k, hk⟩ := ih (s := { s with topic := v }) hf
      exact ⟨k + 1, .cons (step_call hadv) trivial hk⟩

theorem permitted_complete (hc : Topic.complete hash none s.topic client op = some (u, a))
    (hok : ReadsBeforeRemoves s (.call (.invoke client op))) :
    ∃ k, Permitted hash s (.call (.invoke client op) ::
      .replicate k (.call (.advance s.topic.calls.length))) { s with topic := u } := by
  obtain ⟨v, hv, hf⟩ := Option.bind_eq_some_iff.1 hc
  obtain ⟨k, hk⟩ := permitted_finish (s := { s with topic := v }) hf
  exact ⟨k, .cons (step_call hv) hok hk⟩

theorem permitted_resume (hc : s.topic.calls[i]? = some c) (hf : c.pc = .finished a)
    (hi : i ∉ s.returned) :
    Permitted hash s [.resume i] { s with returned := i :: s.returned } := by
  have hany : s.topic.calls[i]?.any (fun c => c.pc.isFinished) = true := by
    rw [hc, Option.any_some, hf]
    rfl
  exact .cons (if_pos ⟨hany, hi⟩) trivial ⟨rfl, trivial⟩

theorem pushes_append (as bs : List DeliveryAction) :
    pushes (as ++ bs) = pushes as ++ pushes bs := by
  simp only [pushes, List.filterMap_append]

theorem openings_complete (client : Nat) (op : Operation) (k i : Nat) :
    (List.filterMap DeliveryAction.onTopic (.call (.invoke client op) ::
      .replicate k (.call (.advance i)))).filterMap TopicAction.opening = [(client, op)] := by
  induction k with
  | zero => rfl
  | succ k ih => exact ih

structure Called (hash : Request → Nat) (s : Delivery) (client : Nat) (op : Operation)
    (acts : List DeliveryAction) (t : Topic) : Prop where
  permitted : Permitted hash s acts { s with topic := t }
  pushes : pushes acts = op.pushRequest.toList
  openings : t.calls.map Call.opening = s.topic.calls.map Call.opening ++ [(client, op)]
  completed : ∃ a, Topic.complete hash none s.topic client op = some (t, a)

theorem exists_called (hash : Request → Nat) (client : Nat) (op : Operation)
    (hco : Topic.Coherent s.topic) (hq : s.topic.Quiet) (ha : op.asserts = true)
    (hp : (op.partitionIdx hash s.topic.storage.length).toNat < s.topic.storage.length)
    (hne : op.isRemove = true →
      s.topic.queue (op.partitionIdx hash s.topic.storage.length) ≠ [])
    (hok : ReadsBeforeRemoves s (.call (.invoke client op))) :
    ∃ acts t, Called hash s client op acts t := by
  obtain ⟨t, a, hc⟩ := Topic.complete_total hco hq ha hp hne none client
  obtain ⟨k, hk⟩ := permitted_complete hc hok
  refine ⟨_, t, hk, ?_, ?_, a, hc⟩
  · rw [Noctua.pushes, openings_complete]
    cases op <;> rfl
  · rw [Topic.openings_of_exec (exec_topic hk.runs), openings_complete]

/-- No call is under way, and those that have come back are calls of the topic. -/
structure Idle (n : Nat) (s : Delivery) : Prop where
  coherent : Topic.Coherent s.topic
  quiet : s.topic.Quiet
  size : s.topic.storage.length = n
  returned : ∀ i ∈ s.returned, i < s.topic.calls.length

theorem idle_init (n : Nat) : Idle n (init n) where
  coherent := Topic.coherent_init n
  quiet := by
    intro c hc
    cases hc
  size := List.length_replicate
  returned := by
    intro i hi
    cases hi

theorem Idle.called (h : Idle n s) (hc : Called hash s client op acts t) :
    Idle n { s with topic := t } := by
  obtain ⟨a, hcomplete⟩ := hc.completed
  have hdone := Topic.completed_of_complete h.coherent h.quiet hcomplete
  refine ⟨hdone.coherent, hdone.quiet, hdone.size.trans h.size, fun i hi => ?_⟩
  have hlen := congrArg List.length hc.openings
  rw [List.length_map, List.length_append, List.length_map] at hlen
  exact Nat.lt_of_lt_of_le (h.returned i hi) (hlen ▸ Nat.le_add_right _ _)

theorem Idle.returned_before (h : Idle n s) (hr : exec (step hash) s acts = some s')
    (hret : s'.returned = s.returned) (hP : s'.Returned P) : s.Returned P := by
  obtain ⟨i, hi, c, hc, hPc⟩ := hP
  rw [hret] at hi
  obtain ⟨d, hd⟩ : ∃ d, s.topic.calls[i]? = some d :=
    ⟨_, List.getElem?_eq_getElem (h.returned i hi)⟩
  refine ⟨i, hi, d, hd, ?_⟩
  cases hf : d.pc with
  | finished a =>
    have hkept := Topic.finished_kept_of_exec (exec_topic hr) hd hf
    exact Option.some.inj (hkept.symm.trans hc) ▸ hPc
  | _ =>
    have hquiet := h.quiet _ (List.mem_of_getElem? hd)
    rw [hf] at hquiet
    cases hquiet

theorem Idle.push (h : Idle n s) (hidx : (Operation.push r padding).partitionIdx hash n = p)
    (hp : p.toNat < n) (client : Nat) :
    ∃ acts t, Called hash s client (.push r padding) acts t ∧
      t.texts p = s.topic.texts p ++ [r.message.text] := by
  rw [← h.size] at hidx hp
  obtain ⟨acts, t, hc⟩ := exists_called hash client (.push r padding) h.coherent h.quiet rfl
    (hidx.symm ▸ hp) (fun hr => by cases hr) trivial
  obtain ⟨a, hcomplete⟩ := hc.completed
  have htexts := (Topic.completed_of_complete h.coherent h.quiet hcomplete).texts
  rw [hidx] at htexts
  exact ⟨acts, t, hc, (Prod.mk.inj htexts).1.symm⟩

theorem Idle.read (h : Idle n s) (hn : n < invalidTopicId.toNat) (hp : p.toNat < n)
    (hm : (s.topic.queue p).head? = some m) (hash : Request → Nat) (client : Nat) :
    ∃ acts s', Permitted hash s acts s' ∧ pushes acts = [] ∧ Idle n s' ∧
      s'.topic.calls.map Call.opening =
        s.topic.calls.map Call.opening ++ [(client, .read p)] ∧
      s'.topic.queue p = s.topic.queue p ∧
      s'.Returned (fun c => Call.reads client p m.text c = true) ∧
      ∀ P, s'.Returned P →
        s.Returned P ∨ P ⟨client, .read p, p, .finished (.message (some m))⟩ := by
  have hvalid : Operation.asserts (.read p) = true := by
    apply bne_iff_ne.2
    rintro rfl
    exact absurd (hp.trans hn) (Nat.lt_irrefl _)
  obtain ⟨acts, t, hc⟩ := exists_called hash client (.read p) h.coherent h.quiet hvalid
    (h.size.symm ▸ hp) (fun hr => by cases hr) trivial
  obtain ⟨a, hcomplete⟩ := hc.completed
  have hcall := Topic.complete_call h.coherent h.quiet hcomplete
  obtain ⟨hq, rfl⟩ := Topic.complete_read h.coherent h.quiet hcomplete
  rw [hm] at hcall
  have hidle := h.called hc
  have hnew : s.topic.calls.length ∉ s.returned := fun hi => Nat.lt_irrefl _ (h.returned _ hi)
  refine ⟨_, _, hc.permitted.append (permitted_resume hcall rfl hnew), ?_,
    ⟨hidle.coherent, hidle.quiet, hidle.size, ?_⟩, hc.openings, hq,
    ⟨_, List.mem_cons_self, _, hcall, ?_⟩, ?_⟩
  · rw [pushes_append, hc.pushes]
    rfl
  · intro i hi
    rcases List.mem_cons.1 hi with rfl | hi
    · exact (List.getElem?_eq_some_iff.1 hcall).1
    · exact hidle.returned i hi
  · simp [Call.reads, Operation.partitionIdx]
  · rintro P ⟨i, hi, c, hci, hP⟩
    rcases List.mem_cons.1 hi with rfl | hi
    · exact .inr (Option.some.inj (hcall.symm.trans hci) ▸ hP)
    · exact .inl (h.returned_before hc.permitted.runs rfl ⟨i, hi, c, hci, hP⟩)

theorem Idle.remove (h : Idle n s) (hn : n < invalidTopicId.toNat)
    (hp : r.partitionId.toNat < n) (hash : Request → Nat) (client : Nat) (padding : Padding)
    (hq : s.topic.texts r.partitionId = r.message.text :: xs)
    (hfirst : ∀ o ∈ s.topic.calls.map Call.opening, o.1 = client → o.2.isRemove = false)
    (hread : s.Returned fun c => Call.reads client r.partitionId r.message.text c = true) :
    ∃ acts t, Called hash s client (.remove r padding) acts t ∧ t.texts r.partitionId = xs := by
  have hvalid : Operation.asserts (.remove r padding) = true := by
    apply bne_iff_ne.2
    intro hr
    rw [hr] at hp
    exact absurd (hp.trans hn) (Nat.lt_irrefl _)
  have hnone : s.topic.calls.countP (Call.removes client r.partitionId r.message.text) = 0 := by
    rw [List.countP_eq_zero]
    intro c hc hr
    have ho := hfirst _ (List.mem_map_of_mem hc)
    rw [Call.removes] at hr
    split at hr
    · rename_i hop
      simp only [Bool.and_eq_true, beq_iff_eq] at hr
      have hrem := ho hr.1.1
      rw [Call.opening, hop] at hrem
      cases hrem
    · cases hr
  have hne : s.topic.queue r.partitionId ≠ [] := by
    intro he
    rw [Topic.texts, he] at hq
    cases hq
  obtain ⟨acts, t, hc⟩ := exists_called hash client (.remove r padding) h.coherent h.quiet hvalid
    (h.size.symm ▸ hp) (fun _ => hne) (show _ < _ by rw [hnone]; exact readsBy_pos.2 hread)
  obtain ⟨a, hcomplete⟩ := hc.completed
  have htexts : Fifo.apply (s.topic.texts r.partitionId) (.remove r.message.text) =
      (t.texts r.partitionId, a.fifo) :=
    (Topic.completed_of_complete h.coherent h.quiet hcomplete).texts
  rw [hq, Fifo.apply, List.head?_cons, if_pos rfl] at htexts
  exact ⟨acts, t, hc, (Prod.mk.inj htexts).1.symm⟩

theorem returned_of_exec {P : Call → Prop} (hP : ∀ c, P c → ∃ a, c.pc = .finished a)
    (h : s.Returned P) (hr : exec (step hash) s acts = some s') : s'.Returned P :=
  exec_invariant (I := fun s => s.Returned P) (fun _ _ _ h hs => h.step hP hs) h hr

theorem finished_of_reads (h : Call.reads client p x c = true) : ∃ a, c.pc = .finished a := by
  rw [Call.reads] at h
  split at h
  · exact ⟨_, ‹_›⟩
  · cases h

theorem exists_pushed {r r' : Request} (hp : p.toNat < n)
    (hr : (Operation.push r padding).partitionIdx hash n = p)
    (hr' : (Operation.push r' padding).partitionIdx hash n = p) :
    ∃ acts s, Permitted hash (init n) acts s ∧ pushes acts = [r, r'] ∧ Idle n s ∧
      s.returned = [] ∧ s.topic.texts p = [r.message.text, r'.message.text] ∧
      ∀ o ∈ s.topic.calls.map Call.opening, o.2.isRemove = false := by
  obtain ⟨acts₁, t₁, h₁, hx₁⟩ := (idle_init n).push hr hp 0
  have hi₁ := (idle_init n).called h₁
  obtain ⟨acts₂, t₂, h₂, hx₂⟩ := hi₁.push hr' hp 0
  refine ⟨_, _, h₁.permitted.append h₂.permitted, ?_, hi₁.called h₂, rfl, ?_, ?_⟩
  · rw [pushes_append, h₁.pushes, h₂.pushes]
    rfl
  · rw [hx₂, hx₁, init, Topic.texts, Topic.init_queue]
    rfl
  · rw [h₂.openings, h₁.openings]
    simp [init, Topic.init, Operation.isRemove]

/-- Clients 1 and 2 read the same head. -/
theorem Idle.read_both (h : Idle n s) (hn : n < invalidTopicId.toNat) (hp : p.toNat < n)
    (hm : (s.topic.queue p).head? = some m) (hash : Request → Nat)
    (hno : ∀ o ∈ s.topic.calls.map Call.opening, o.2.isRemove = false) :
    ∃ acts s', Permitted hash s acts s' ∧ pushes acts = [] ∧ Idle n s' ∧
      s'.topic.queue p = s.topic.queue p ∧
      (∀ o ∈ s'.topic.calls.map Call.opening, o.2.isRemove = false) ∧
      s'.Returned (fun c => Call.reads 1 p m.text c = true) ∧
      s'.Returned (fun c => Call.reads 2 p m.text c = true) ∧
      ∀ m', s'.HasReturned p m' → s.HasReturned p m' ∨ m' = m := by
  obtain ⟨acts₁, s₁, h₁, hp₁, hi₁, ho₁, hq₁, hread₁, honly₁⟩ := h.read hn hp hm hash 1
  obtain ⟨acts₂, s₂, h₂, hp₂, hi₂, ho₂, hq₂, hread₂, honly₂⟩ :=
    hi₁.read hn hp (hq₁.symm ▸ hm) hash 2
  refine ⟨_, s₂, h₁.append h₂, ?_, hi₂, hq₂.trans hq₁, ?_,
    returned_of_exec (fun _ => finished_of_reads) hread₁ h₂.runs, hread₂, fun m' hret => ?_⟩
  · rw [pushes_append, hp₁, hp₂]
    rfl
  · rw [ho₂, ho₁]
    intro o ho
    simp only [List.mem_append, List.mem_singleton] at ho
    rcases ho with (ho | rfl) | rfl
    · exact hno o ho
    · rfl
    · rfl
  · rcases honly₂ _ hret with hret | ⟨-, hf⟩
    · rcases honly₁ _ hret with hret | ⟨-, hf⟩
      · exact .inl hret
      · cases hf
        exact .inr rfl
    · cases hf
      exact .inr rfl

/-- Clients 1 and 2, which have read the same text, both remove it. -/
theorem Idle.remove_both {r : Request} (h : Idle n s) (hn : n < invalidTopicId.toNat)
    (hp : r.partitionId.toNat < n) (hash : Request → Nat) (padding : Padding)
    (hq : s.topic.texts r.partitionId = [r.message.text, r.message.text])
    (hno : ∀ o ∈ s.topic.calls.map Call.opening, o.2.isRemove = false)
    (hread₁ : s.Returned fun c => Call.reads 1 r.partitionId r.message.text c = true)
    (hread₂ : s.Returned fun c => Call.reads 2 r.partitionId r.message.text c = true) :
    ∃ acts s', Permitted hash s acts s' ∧ pushes acts = [] ∧ s'.returned = s.returned ∧
      s'.topic.texts r.partitionId = [] := by
  obtain ⟨acts₁, t₁, h₁, hx₁⟩ := h.remove hn hp hash 1 padding hq (fun o ho _ => hno o ho) hread₁
  have hno₁ : ∀ o ∈ t₁.calls.map Call.opening, o.1 = 2 → o.2.isRemove = false := by
    rw [h₁.openings]
    intro o ho hclient
    rcases List.mem_append.1 ho with ho | ho
    · exact hno o ho
    · rw [List.mem_singleton.1 ho] at hclient
      cases hclient
  obtain ⟨acts₂, t₂, h₂, hx₂⟩ := (h.called h₁).remove hn hp hash 2 padding hx₁ hno₁
    (returned_of_exec (fun _ => finished_of_reads) hread₂ h₁.permitted.runs)
  refine ⟨_, _, h₁.permitted.append h₂.permitted, ?_, rfl, hx₂⟩
  rw [pushes_append, h₁.pushes, h₂.pushes]
  rfl

/-- Of two messages that were there only the first has been returned, and both are gone. -/
theorem not_atLeastOnce (hr : exec (step hash) (init n) before = some s)
    (hr' : exec (step hash) s acts = some s') (hq : s.topic.queue p = [m, m'])
    (hgone : s'.topic.texts p = []) (honly : ∀ x, s'.HasReturned p x → x = m) :
    ¬ AtLeastOnce s' := by
  intro hall
  have ha := Topic.accounted_of_exec (exec_topic hr)
  have hpushed : s.topic.pushed p = s.topic.popped p ++ [m, m'] := by rw [ha.conserved, hq]
  have hkept : m' ∈ s'.topic.pushed p := by
    apply Topic.pushed_kept (exec_topic hr')
    rw [hpushed]
    exact List.mem_append_right _ (List.mem_cons_of_mem m (List.mem_singleton_self m'))
  have hrun : exec (step hash) (init n) (before ++ acts) = some s' := by
    rw [exec_append, hr, Option.bind_some, hr']
  rw [(Topic.accounted_of_exec (exec_topic hrun)).conserved, List.map_eq_nil_iff.1 hgone,
    List.append_nil] at hkept
  have hdistinct := ha.distinct p
  rw [hpushed, honly m' (hall p m' hkept)] at hdistinct
  exact absurd (List.nodup_append.1 hdistinct).2.1 (by simp)

/-- Two messages of one text, each of two consumers reads the first, and both remove: no read has
returned the second. -/
theorem exists_undelivered {r r' : Request} (hn : n < invalidTopicId.toNat)
    (hd : ¬ TextsDiffer hash n r r') :
    ∃ acts s, Permitted hash (init n) acts s ∧ pushes acts = [r, r'] ∧ ¬ AtLeastOnce s := by
  simp only [TextsDiffer, not_forall, not_not] at hd
  obtain ⟨padding, p, hr, hr', hp, hx⟩ := hd
  obtain ⟨acts₁, s₁, h₁, hp₁, hi₁, hret₁, hx₁, hno₁⟩ := exists_pushed hp hr hr'
  obtain ⟨m, ms, hq, hm, hms⟩ := List.map_eq_cons_iff.1 hx₁
  obtain ⟨m', rfl, -⟩ := List.map_eq_singleton_iff.1 hms
  obtain ⟨acts₂, s₂, h₂, hp₂, hi₂, hq₂, hno₂, hread₁, hread₂, honly⟩ :=
    hi₁.read_both (m := m) hn hp (by rw [hq]; rfl) hash hno₁
  have hx₂ : s₂.topic.texts p = [r.message.text, r.message.text] := by
    rw [Topic.texts, hq₂]
    exact hx₁.trans (by rw [hx])
  obtain ⟨acts₃, s₃, h₃, hp₃, hret₃, hx₃⟩ := hi₂.remove_both (r := ⟨r.topicName, p, r.message⟩)
    hn hp hash padding hx₂ hno₂ (hm ▸ hread₁) (hm ▸ hread₂)
  refine ⟨_, s₃, h₁.append (h₂.append h₃), ?_, ?_⟩
  · rw [pushes_append, pushes_append, hp₁, hp₂, hp₃]
    rfl
  · refine not_atLeastOnce h₁.runs (h₂.append h₃).runs hq hx₃ fun x hret => ?_
    refine (honly x (hi₂.returned_before h₃.runs hret₃ hret)).resolve_left ?_
    rintro ⟨i, hi, -⟩
    rw [hret₁] at hi
    cases hi

theorem exists_pair_of_not_pairwise {R : α → α → Prop} {l : List α} (h : ¬ l.Pairwise R) :
    ∃ a b rest, l.Perm (a :: b :: rest) ∧ ¬ R a b := by
  induction l with
  | nil => exact (h .nil).elim
  | cons x l ih =>
    by_cases hl : l.Pairwise R
    · have hx : ∃ y ∈ l, ¬ R x y := by
        by_contra hall
        exact h (List.pairwise_cons.2 ⟨by simpa using hall, hl⟩)
      obtain ⟨y, hy, hR⟩ := hx
      obtain ⟨as, bs, rfl⟩ := List.append_of_mem hy
      exact ⟨x, y, as ++ bs, (List.perm_middle).cons x, hR⟩
    · obtain ⟨a, b, rest, hp, hR⟩ := ih hl
      refine ⟨a, b, x :: rest, (hp.cons x).trans ?_, hR⟩
      exact (List.Perm.swap a x _).trans ((List.Perm.swap b x rest).cons a)

def pushing (requests : List Request) : List DeliveryAction :=
  requests.map fun r => .call (.invoke 0 (.push r (.replicate 5 0)))

theorem pushes_pushing (requests : List Request) : pushes (pushing requests) = requests := by
  induction requests with
  | nil => rfl
  | cons r rest ih => exact congrArg (r :: ·) ih

theorem reads_pushing (s : Delivery) (requests : List Request) :
    AllSteps (step hash) ReadsBeforeRemoves s (pushing requests) := by
  induction requests generalizing s with
  | nil => trivial
  | cons r rest ih => exact ⟨trivial, fun t _ => ih t⟩

/-- Consumers that remove only what their own reads have returned, once for each read, take out only
messages that a read has returned, whatever the interleaving: this holds for the pushes of these
requests exactly when no two of them put one text on one partition. -/
theorem at_least_once_iff (hash : Request → Nat) (n : Nat) (hn : n < invalidTopicId.toNat)
    (requests : List Request) :
    (∀ acts, (pushes acts).Perm requests →
      AllSteps (step hash) ReadsBeforeRemoves (init n) acts →
        Throughout (step hash) AtLeastOnce (init n) acts) ↔
      requests.Pairwise (TextsDiffer hash n) := by
  constructor
  · intro h
    by_contra hd
    obtain ⟨r, r', rest, hperm, hd⟩ := exists_pair_of_not_pairwise hd
    obtain ⟨acts, s, hs, hp, hlost⟩ := exists_undelivered hn hd
    have hpushes : (pushes (acts ++ pushing rest)).Perm requests := by
      rw [pushes_append, hp, pushes_pushing]
      exact hperm.symm
    have hall := h (acts ++ pushing rest) hpushes
      (hs.reads.append hs.runs (reads_pushing s rest))
    exact hlost (throughout_iff_reached.1 hall acts s (List.prefix_append _ _) hs.runs)
  · intro hd acts hperm hc
    rw [throughout_iff_reached]
    rintro bs s ⟨cs, rfl⟩ hr
    have hsub : (pushes bs).Pairwise (TextsDiffer hash n) := by
      have hall := (hperm.pairwise_iff TextsDiffer.symm).2 hd
      rw [pushes_append] at hall
      exact (List.pairwise_append.1 hall).1
    exact delivered_of_differ hr hc.of_append hsub

/-- A push of "b" and one more push; two consumers read the first message, and both remove "b". -/
def twoConsumersRun (second : UInt8) : List DeliveryAction :=
  let r := Request.ofByte 98
  let call (client : Nat) (op : Operation) (i steps : Nat) : List DeliveryAction :=
    .call (.invoke client op) :: .replicate steps (.call (.advance i))
  [call 0 (.push r (.replicate 5 0)) 0 6, call 0 (.push (.ofByte second) (.replicate 5 0)) 1 6,
    call 1 (.read 0) 2 3, call 2 (.read 0) 3 3, [.resume 2, .resume 3],
    call 1 (.remove r (.replicate 5 0)) 4 10, [.call (.invoke 2 (.remove r (.replicate 5 0)))],
    .replicate 3 (.call (.advance 5))].flatten

/-- Where the second message is "c" the second `remove` is turned back. -/
theorem at_least_once_differing : ∃ s,
    exec (step fun _ => 0) (init 1) (twoConsumersRun 99) = some s ∧
      s.topic.popped 0 = [⟨0, [98]⟩] ∧ s.topic.queue 0 = [⟨1, [99]⟩] ∧ AtLeastOnce s := by
  have hrun : (exec (step fun _ => 0) (init 1) (twoConsumersRun 99)).map
      (fun s => (s.topic.popped 0, s.topic.queue 0)) =
        some ([⟨0, [98]⟩], [⟨1, [99]⟩]) := by decide +kernel
  obtain ⟨s, hs, hend⟩ := Option.map_eq_some_iff.1 hrun
  obtain ⟨hpopped, hqueue⟩ := Prod.mk.inj hend
  have hdiffer : [Request.ofByte 98, Request.ofByte 99].Pairwise
      (TextsDiffer (fun _ => 0) 1) := by
    simp [TextsDiffer, Request.ofByte]
  have hpushes : pushes (twoConsumersRun 99) = [Request.ofByte 98, Request.ofByte 99] := by
    decide +kernel
  have hall := (at_least_once_iff (fun _ => 0) 1 (by decide) _).2 hdiffer (twoConsumersRun 99)
    (.of_eq hpushes) (by decide +kernel)
  exact ⟨s, hs, hpopped, hqueue, hall.last hs⟩

/-- Where both are "b", it takes out the second message, which nobody has read. -/
def undeliveredRun : List DeliveryAction :=
  twoConsumersRun 98 ++ .replicate 7 (.call (.advance 5))

theorem exec_undeliveredRun :
    (exec (step fun _ => 0) (init 1) undeliveredRun).isSome = true := by decide +kernel

theorem at_least_once_fails :
    ¬ ∀ hash n acts, AllSteps (step hash) ReadsBeforeRemoves (init n) acts →
      Throughout (step hash) AtLeastOnce (init n) acts := by
  intro h
  let s := (exec (step fun _ => 0) (init 1) undeliveredRun).get exec_undeliveredRun
  have hs : AtLeastOnce s := (h (fun _ => 0) 1 undeliveredRun (by decide +kernel)).last
    (Option.some_get exec_undeliveredRun).symm
  obtain ⟨i, hi, c, hc, -, hf⟩ := hs 0 ⟨1, [98]⟩ (by decide +kernel)
  have hnone : ∀ i ∈ s.returned, (s.topic.calls[i]?.map Call.pc) ≠
      some (.finished (.message (some ⟨1, [98]⟩))) := by decide +kernel
  apply hnone i hi
  rw [hc, Option.map_some, hf]

end Delivery
end Noctua
