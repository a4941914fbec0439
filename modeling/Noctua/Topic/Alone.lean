import Noctua.Topic.Linearizable
import Noctua.Topic.Progress

namespace Noctua
open Transition
set_option autoImplicit true

def Pc.remaining : Pc → Nat
  | .awaitRead => 10
  | .inspect => 9
  | .releaseRead none => 8
  | .awaitWrite => 7
  | .recheck => 6
  | .awaitWall => 5
  | .store => 4
  | .releaseWall => 3
  | .mutate => 2
  | .releaseRead (some _) | .releaseWrite _ => 1
  | .finished _ => 0

/-- What a call has made of the texts of its partition so far. -/
def Call.Settles (before now : List Text) (c : Call) : Prop :=
  match c.pc with
  | .releaseWrite a | .finished a => Fifo.apply before c.operation.fifo = (now, a.fifo)
  | _ => now = before

theorem Call.Sound.visits {c : Call} (hs : c.Sound q) : c.operation.visits c.pc = true := by
  obtain ⟨client, op, p, pc⟩ := c
  cases op with
  | push => cases pc <;> first | rfl | exact hs.elim
  | remove => cases pc <;> rfl
  | read =>
    cases pc with
    | releaseRead a => cases a <;> first | rfl | cases hs
    | _ => first | rfl | exact hs.elim

namespace Topic
variable {t u t₀ : Topic} {c c₀ d : Call} {p q : UInt16} {e : Effect} {hash : Request → Nat}

/-- The next action of a call that runs alone; where the store of its record fails, `lost` is how
much of it reaches the file. -/
def nextAction (lost : Option Nat) (i : Nat) : Pc → TopicAction
  | .store => lost.elim (.advance i) (.failStore i)
  | _ => .advance i

def finish (hash : Request → Nat) (lost : Option Nat) (i : Nat) :
    Nat → Topic → Option (Topic × Answer)
  | 0, _ => none
  | fuel + 1, t => t.calls[i]?.bind fun c =>
    match c.pc with
    | .finished a => some (t, a)
    | pc => (t.step hash (nextAction lost i pc)).bind (finish hash lost i fuel)

/-- A call that is awaited to its end while no other call runs. -/
def complete (hash : Request → Nat) (lost : Option Nat) (t : Topic) (client : Nat)
    (op : Operation) : Option (Topic × Answer) :=
  (t.step hash (.invoke client op)).bind (finish hash lost t.calls.length 11)

def contents (t : Topic) : List (List Text) := t.storage.map fun q => q.map Message.text

def Quiet (t : Topic) : Prop := ∀ c ∈ t.calls, c.pc.isFinished = true

theorem contents_getD (t : Topic) (p : UInt16) :
    t.contents.getD p.toNat [] = (t.queue p).map Message.text := by
  rw [contents, queue, List.getD_eq_getElem?_getD, List.getD_eq_getElem?_getD, List.getElem?_map]
  cases t.storage[p.toNat]? <;> rfl

theorem Next.remaining (hn : Next t i c pc e) : pc.remaining < c.pc.remaining := by
  cases hn with
  | acquireRead hpc | readFront hpc | rejectFirst hpc | passFirst hpc | answerRead hpc
  | releaseRead hpc | acquireRemove hpc | acquirePush hpc | rejectSecond hpc | passSecond hpc
  | acquireWall hpc | store hpc | failStore hpc | releaseWall hpc | push hpc | pop hpc
  | answerWrite hpc =>
    simp [hpc, Pc.remaining]

theorem Next.responds (hn : Next t i c (.finished a) e) : e = .respond a := by
  cases hn <;> rfl

theorem Next.settles (hn : Next t i c pc e) (hs : c.Sound (t.queue c.partition))
    (h : c.Settles before ((t.queue c.partition).map Message.text)) :
    Call.Settles before ((e.onQueue (t.queue c.partition)).map Message.text)
      { c with pc := pc } := by
  have unsettled (hd : c.pc.decided = false) :
      (t.queue c.partition).map Message.text = before := by
    rw [Call.Settles] at h
    split at h
    · rename_i hpc
      rw [hpc] at hd
      cases hd
    · rename_i hpc
      exact (hn.unfinished hpc).elim
    · exact h
  rcases hn.decided_cases hs with ⟨ha, hq, hd, hd'⟩ | ⟨-, -, hd, a, rfl, hap⟩ |
    ⟨a, rfl, rfl, -, hd, hap⟩ | ⟨a, rfl, rfl, hpc⟩
  · rw [hq, unsettled hd, Call.Settles]
    split
    · rename_i hpc
      cases hpc
      cases hd'
    · rename_i hpc
      cases hpc
      rw [hn.responds] at ha
      cases ha
    · rfl
  · rw [← unsettled hd]
    exact hap
  · rw [← unsettled hd]
    exact hap
  · rw [Call.Settles, hpc] at h
    exact h

/-- Call `i` of a topic that was `t₀` when it began has come to `pc`, and no other call runs. -/
structure Working (t₀ : Topic) (i : Nat) (c₀ : Call) (t : Topic) (pc : Pc) : Prop where
  coherent : Coherent t
  call : t.calls[i]? = some { c₀ with pc := pc }
  others : ∀ (j : Nat) (d : Call), j ≠ i → t.calls[j]? = some d → d.pc.isFinished = true
  settles : Call.Settles ((t₀.queue c₀.partition).map Message.text)
    ((t.queue c₀.partition).map Message.text) { c₀ with pc := pc }
  elsewhere : ∀ n, n ≠ c₀.partition.toNat → t.storage[n]? = t₀.storage[n]?
  size : t.storage.length = t₀.storage.length

theorem Working.advanced (h : Working t₀ i c₀ t pc) (hn : Next t i { c₀ with pc := pc } pc' e) :
    Working t₀ i c₀ (t.advanced i { c₀ with pc := pc } pc' e) pc' where
  coherent := h.coherent.advanced h.call hn
  call := calls_advanced_self h.call
  others := by
    intro j d hj hd
    rcases (calls_advanced h.call).1 hd with ⟨he, -⟩ | ⟨-, hd⟩
    · exact (hj he).elim
    · exact h.others j d hj hd
  settles := by
    rw [advanced_queue_self (c := { c₀ with pc := pc }) (h.coherent.inRange i _ h.call)]
    exact hn.settles (h.coherent.sound i _ h.call) h.settles
  elsewhere := by
    intro n hn
    exact (perform_storage_ne hn).trans (h.elsewhere n hn)
  size := (advanced_storage_length _ _ _ _ _).trans h.size

theorem working_invoked (hco : Coherent t) (hq : Quiet t) (hp : p.toNat < t.storage.length) :
    Working t t.calls.length ⟨client, op, p, op.start⟩ (t.invoked client op p) op.start where
  coherent := hco.invoked hp
  call := calls_invoked.2 (.inr ⟨rfl, rfl⟩)
  others := by
    intro j d hj hd
    rcases calls_invoked.1 hd with hd | ⟨he, -⟩
    · exact hq d (List.mem_of_getElem? hd)
    · exact (hj he).elim
  settles := by cases op <;> rfl
  elsewhere _ _ := rfl
  size := rfl

theorem Working.step_cases (h : Working t₀ i c₀ t pc)
    (hs : t.step hash (nextAction lost i pc) = some u) :
    ∃ pc' e, Next t i { c₀ with pc := pc } pc' e ∧
      u = t.advanced i { c₀ with pc := pc } pc' e := by
  obtain ⟨_, _, ha, -⟩ | ⟨j, c, pc', e, ha, hc, hn, rfl⟩ := Topic.step_cases hs
  · cases pc <;> first | cases ha | (cases lost <;> cases ha)
  · have hj : j = i := by
      rcases ha with ha | ⟨kept, ha⟩ <;> cases pc <;>
        first | (cases ha; rfl) | (cases lost <;> cases ha <;> rfl)
    subst hj
    obtain rfl := Option.some.inj (h.call.symm.trans hc)
    exact ⟨pc', e, hn, rfl⟩

theorem Working.step (h : Working t₀ i c₀ t pc)
    (hs : t.step hash (nextAction lost i pc) = some u) :
    ∃ pc', Working t₀ i c₀ u pc' ∧ pc'.remaining < pc.remaining := by
  obtain ⟨pc', e, hn, rfl⟩ := h.step_cases hs
  exact ⟨pc', h.advanced hn, hn.remaining⟩

theorem Working.canStep (h : Working t₀ i c₀ t pc) (hu : pc.isFinished = false) :
    t.CanStep { c₀ with pc := pc } := by
  have alone {d : Call} (hd : d ∈ t.calls) :
      d = { c₀ with pc := pc } ∨ ∃ a, d.pc = .finished a := by
    obtain ⟨j, hj⟩ := List.mem_iff_getElem?.1 hd
    by_cases he : j = i
    · subst he
      exact .inl (Option.some.inj (hj.symm.trans h.call))
    · have hf := h.others j d he hj
      cases hpc : d.pc with
      | finished a => exact .inr ⟨a, rfl⟩
      | _ => rw [hpc] at hf; cases hf
  cases pc with
  | awaitRead =>
    intro d hd _
    rcases alone hd with rfl | ⟨a, hpc⟩
    · exact ⟨rfl, Pc.noConfusion⟩
    · rw [hpc]
      exact ⟨rfl, Pc.noConfusion⟩
  | awaitWrite =>
    intro d hd _
    rcases alone hd with rfl | ⟨a, hpc⟩
    · exact ⟨rfl, rfl⟩
    · rw [hpc]
      exact ⟨rfl, rfl⟩
  | awaitWall =>
    intro d hd
    rcases alone hd with rfl | ⟨a, hpc⟩
    · rfl
    · rw [hpc]
      rfl
  | finished a => cases hu
  | _ => trivial

/-- While it has made nothing of its partition, a `remove` that began on a message finds one. -/
theorem Working.present (h : Working t₀ i c₀ t pc)
    (hne : c₀.operation.isRemove = true → t₀.queue c₀.partition ≠ []) :
    ¬ t.DereferencesNull { c₀ with pc := pc } := by
  rintro ⟨hr, hpc, hq⟩
  have hs := h.settles
  have hsame : (t.queue c₀.partition).map Message.text =
      (t₀.queue c₀.partition).map Message.text := by
    rcases hpc with rfl | rfl <;> exact hs
  rw [hq] at hsame
  exact hne hr (List.map_eq_nil_iff.1 hsame.symm)

theorem Working.goes_on (h : Working t₀ i c₀ t pc) (hu : pc.isFinished = false)
    (hne : c₀.operation.isRemove = true → t₀.queue c₀.partition ≠ []) (lost : Option Nat) :
    ∃ u, t.step hash (nextAction lost i pc) = some u := by
  have hs : Call.Sound (t.queue c₀.partition) { c₀ with pc := pc } :=
    h.coherent.sound i _ h.call
  obtain ⟨pc', e, hn⟩ := (h.canStep hu).next (i := i) hs.visits (h.present hne)
  have hadv : ∃ u, t.step hash (.advance i) = some u :=
    ⟨_, by rw [Topic.step, h.call, Option.bind_some, hn, Option.map_some]⟩
  cases pc with
  | store =>
    cases lost with
    | none => exact hadv
    | some kept =>
      obtain ⟨d, -, he⟩ := Option.map_eq_some_iff.1 hn
      cases he
      refine ⟨t.advanced i { c₀ with pc := .store } .releaseWall (.failStore d kept), ?_⟩
      rw [nextAction, Option.elim, Topic.step, h.call, Option.bind_some, hn, Option.bind_some]
  | _ => exact hadv

theorem Working.finish (h : Working t₀ i c₀ t pc) (hf : finish hash lost i fuel t = some (u, a)) :
    Working t₀ i c₀ u (.finished a) := by
  induction fuel generalizing t pc with
  | zero => cases hf
  | succ fuel ih =>
    rw [Topic.finish, h.call, Option.bind_some] at hf
    split at hf
    · rename_i hpc
      cases hf
      cases hpc
      exact h
    · obtain ⟨v, hv, hf⟩ := Option.bind_eq_some_iff.1 hf
      obtain ⟨pc', hw, -⟩ := h.step hv
      exact ih hw hf

theorem Working.finishes (h : Working t₀ i c₀ t pc)
    (hne : c₀.operation.isRemove = true → t₀.queue c₀.partition ≠ []) (lost : Option Nat)
    (hfuel : pc.remaining < fuel) : ∃ u a, Topic.finish hash lost i fuel t = some (u, a) := by
  induction fuel generalizing t pc with
  | zero => exact absurd hfuel (Nat.not_lt_zero _)
  | succ fuel ih =>
    rw [Topic.finish, h.call, Option.bind_some]
    split
    · exact ⟨_, _, rfl⟩
    · rename_i hpc
      have hu : pc.isFinished = false := by
        cases pc with
        | finished a => exact (hpc a rfl).elim
        | _ => rfl
      obtain ⟨v, hv⟩ : ∃ v, t.step hash (nextAction lost i pc) = some v := h.goes_on hu hne lost
      obtain ⟨pc', hw, hlt⟩ := h.step hv
      rw [hv, Option.bind_some]
      exact ih hw (by omega)

structure Completed (t : Topic) (op : Operation) (p : UInt16) (u : Topic) (a : Answer) : Prop where
  inRange : p.toNat < t.storage.length
  coherent : Coherent u
  quiet : Quiet u
  contents : ∃ q, Fifo.apply (t.contents.getD p.toNat []) op.fifo = (q, a.fifo) ∧
    u.contents = t.contents.set p.toNat q

theorem Completed.determined {t' u' : Topic} (h : Completed t op p u a)
    (h' : Completed t' op' p u' a') (hc : t.contents = t'.contents) (hop : op.fifo = op'.fifo) :
    u.contents = u'.contents ∧ a.fifo = a'.fifo := by
  obtain ⟨q, hq, hset⟩ := h.contents
  obtain ⟨q', hq', hset'⟩ := h'.contents
  rw [hc, hop, hq'] at hq
  obtain ⟨rfl, ha⟩ := Prod.mk.inj hq
  exact ⟨by rw [hset, hset', hc], ha.symm⟩

theorem Working.contents (h : Working t₀ i c₀ t pc) :
    t.contents = t₀.contents.set c₀.partition.toNat
      ((t.queue c₀.partition).map Message.text) := by
  have hp : c₀.partition.toNat < t.storage.length :=
    h.coherent.inRange i { c₀ with pc := pc } h.call
  apply List.ext_getElem?
  intro n
  by_cases hn : n = c₀.partition.toNat
  · have hp₀ : c₀.partition.toNat < t₀.contents.length := by
      rw [Topic.contents, List.length_map, ← h.size]
      exact hp
    rw [hn, List.getElem?_set_self hp₀, Topic.contents, List.getElem?_map, queue,
      List.getD_eq_getElem?_getD, List.getElem?_eq_getElem hp]
    rfl
  · rw [List.getElem?_set_ne (Ne.symm hn), Topic.contents, Topic.contents, List.getElem?_map,
      List.getElem?_map, h.elsewhere n hn]

theorem Working.completed (h : Working t t.calls.length ⟨client, op, p, op.start⟩ u (.finished a)) :
    Completed t op p u a where
  inRange := h.size ▸ h.coherent.inRange _ _ h.call
  coherent := h.coherent
  quiet := by
    intro d hd
    obtain ⟨j, hj⟩ := List.mem_iff_getElem?.1 hd
    by_cases he : j = t.calls.length
    · subst he
      obtain rfl := Option.some.inj (hj.symm.trans h.call)
      rfl
    · exact h.others j d he hj
  contents := by
    refine ⟨_, ?_, h.contents⟩
    rw [contents_getD]
    exact h.settles

theorem completed_of_complete (hco : Coherent t) (hq : Quiet t)
    (h : complete hash lost t client op = some (u, a)) :
    Completed t op (op.partitionIdx hash t.storage.length) u a := by
  obtain ⟨v, hs, hf⟩ := Option.bind_eq_some_iff.1 h
  obtain ⟨hp, rfl⟩ := invoke_cases hs
  exact ((working_invoked hco hq hp).finish hf).completed

/-- A call on a partition that the topic has, and that is not empty for a `remove`, comes to an
end when it runs alone. -/
theorem complete_total (hco : Coherent t) (hq : Quiet t) (ha : op.asserts = true)
    (hp : (op.partitionIdx hash t.storage.length).toNat < t.storage.length)
    (hne : op.isRemove = true → t.queue (op.partitionIdx hash t.storage.length) ≠ [])
    (lost : Option Nat) (client : Nat) :
    ∃ u a, complete hash lost t client op = some (u, a) := by
  have hw : Working t t.calls.length
      ⟨client, op, op.partitionIdx hash t.storage.length, op.start⟩ _ op.start :=
    working_invoked hco hq hp
  have hstart : op.start.remaining < 11 := by cases op <;> simp [Operation.start, Pc.remaining]
  rw [complete, Topic.step, if_pos ⟨ha, hp⟩, Option.bind_some]
  exact hw.finishes hne lost hstart

end Topic
end Noctua
