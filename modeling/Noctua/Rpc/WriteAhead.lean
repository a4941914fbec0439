import Noctua.Rpc.ServerStep
import Noctua.Topic.Coherent

namespace Noctua
set_option autoImplicit true

/-- The answers of calls that have changed their partition. -/
def Answer.changes : Answer → Bool
  | .pushed => true
  | .removed taken => taken
  | .message _ => false

/-- The store of the call has been made and its change comes next or is made. -/
def Pc.pastStore : Pc → Bool
  | .releaseWall | .mutate => true
  | .releaseRead (some a) | .releaseWrite a | .finished a => a.changes
  | _ => false

theorem Operation.start_pastStore (op : Operation) : op.start.pastStore = false := by
  cases op <;> rfl

namespace Topic
variable {t : Topic} {c : Call} {e : Effect} {p : UInt16}

theorem Next.store_of_pastStore (hn : Next t i c pc e) (h : pc.pastStore = true) :
    c.pc.pastStore = true ∨ c.pc = .store := by
  cases hn with
  | store hpc | failStore hpc => exact .inr hpc
  | answerRead hpc | releaseWall hpc | push hpc | pop hpc | answerWrite hpc =>
    rw [hpc]
    exact .inl h
  | _ => cases h

theorem Next.pastStore (hn : Next t i c pc e) (h : c.pc.pastStore = true) :
    pc.pastStore = true := by
  cases hn with
  | answerRead hpc | answerWrite hpc =>
    rw [hpc] at h
    exact h
  | releaseWall hpc | push hpc | pop hpc => rfl
  | acquireRead hpc | readFront hpc | rejectFirst hpc | passFirst hpc | releaseRead hpc
  | acquireRemove hpc | acquirePush hpc | rejectSecond hpc | passSecond hpc | acquireWall hpc
  | store hpc | failStore hpc =>
    rw [hpc] at h
    cases h

theorem queue_store (t : Topic) (i : Nat) (c : Call) (pc : Pc) (d : Wall.WallData) :
    (t.advanced i c pc (.store d)).queue p = t.queue p := by
  simp only [advanced_queue, perform]
  split <;> rfl

theorem Next.mutates (hn : Next t i c pc e)
    (hq : (t.advanced i c pc e).queue p ≠ t.queue p) : c.pc = .mutate := by
  cases hn with
  | push hpc | pop hpc => exact hpc
  | store => exact (hq (queue_store ..)).elim
  | _ => exact (hq rfl).elim

theorem Next.afterWall (hn : Next t i c pc e) (hpc : c.pc = .releaseWall) : pc = .mutate := by
  cases hn with
  | releaseWall => rfl
  | acquireRead h | readFront h | rejectFirst h | passFirst h | answerRead h | releaseRead h
  | acquireRemove h | acquirePush h | rejectSecond h | passSecond h | acquireWall h | store h
  | failStore h | push h | pop h | answerWrite h => cases h.symm.trans hpc

theorem Next.afterStore (hn : Next t i c pc e) (hpc : c.pc = .store) : pc = .releaseWall := by
  cases hn with
  | store | failStore => rfl
  | acquireRead h | readFront h | rejectFirst h | passFirst h | answerRead h | releaseRead h
  | acquireRemove h | acquirePush h | rejectSecond h | passSecond h | acquireWall h
  | releaseWall h | push h | pop h | answerWrite h => cases h.symm.trans hpc

theorem Next.changes (hn : Next t i c pc e) (hpc : c.pc = .mutate)
    (hs : c.Sound (t.queue c.partition)) (hr : c.partition.toNat < t.storage.length) :
    (t.advanced i c pc e).queue c.partition ≠ t.queue c.partition := by
  rw [advanced_queue_self hr]
  cases hn with
  | push => exact fun he => List.cons_ne_nil _ _ (List.append_right_eq_self.1 he)
  | pop _ hop =>
    rw [Call.Sound, hop, hpc] at hs
    intro he
    cases hq : t.queue c.partition with
    | nil => rw [hq] at hs; cases hs
    | cons m q => rw [hq] at he; exact List.cons_ne_self m q he.symm
  | acquireRead h | readFront h | rejectFirst h | passFirst h | answerRead h | releaseRead h
  | acquireRemove h | acquirePush h | rejectSecond h | passSecond h | acquireWall h | store h
  | failStore h | releaseWall h | answerWrite h => cases h.symm.trans hpc

end Topic

namespace Rpc
open Transition

/-- The server with the calls whose record has reached the wall file, and those whose record
has not although they made their store. -/
structure Audited where
  broker : Broker := {}
  written : List (Text × Nat) := []
  lost : List (Text × Nat) := []

namespace Broker

def storing (b : Broker) (name : Text) (i : Nat) : Option Topic :=
  (b.registry.getTopic name).filter fun t => (t.calls[i]?).any fun c => c.pc = .store

def written (b : Broker) : BrokerAction → List (Text × Nat)
  | .advance name i =>
    match b.storing name i with
    | some t => if t.wallWriter.failed then [] else [(name, i)]
    | none => []
  | _ => []

def lost (b : Broker) : BrokerAction → List (Text × Nat)
  | .advance name i =>
    match b.storing name i with
    | some t => if t.wallWriter.failed then [(name, i)] else []
    | none => []
  | .failStore name i _ => if (b.storing name i).isSome then [(name, i)] else []
  | _ => []

/-- The PUSH, or the DELETE that has removed a message, which the session answers next. -/
def confirms (b : Broker) (s : Nat) : Option (Text × Nat) :=
  b.sessions[s]?.bind fun session =>
    match session.state with
    | .calling _ name i => (b.callOf name i).bind fun c =>
      match c.pc with
      | .finished a => if a.changes then some (name, i) else none
      | _ => none
    | _ => none

def Idle (b : Broker) : Prop :=
  ∀ name i c, b.callOf name i = some c → c.pc.isFinished = true

end Broker

namespace Audited

def step (x : Audited) (a : BrokerAction) : Option Audited :=
  (x.broker.step a).map fun b =>
    { broker := b, written := x.written ++ x.broker.written a, lost := x.lost ++ x.broker.lost a }

/-- What a step may do: nothing unlogged is applied or acknowledged. -/
structure OnlyLogged (x : Audited) (a : BrokerAction) : Prop where
  applied : ∀ b name p, x.broker.step a = some b → b.queue name p ≠ x.broker.queue name p →
    ∃ i, a = .advance name i ∧ (name, i) ∈ x.written
  acknowledged : ∀ s name i, a = .reply s → x.broker.confirms s = some (name, i) →
    (name, i) ∈ x.written
  untouched : ∀ b name i p, a = .advance name i → (name, i) ∈ x.lost →
    x.broker.step a = some b → b.queue name p = x.broker.queue name p

/-- No write or flush fails in this step, and none has failed on the stream before. -/
def StoresSucceed (x : Audited) (a : BrokerAction) : Prop := x.broker.lost a = []

/-- No record is lost so far, and every call past its store has its record in the file. -/
structure AllWritten (x : Audited) : Prop where
  lost : x.lost = []
  written : ∀ name i c, x.broker.callOf name i = some c → c.pc.pastStore = true →
    (name, i) ∈ x.written

theorem allWritten_init : AllWritten {} where
  lost := rfl
  written := by
    intro name i c hc
    cases hc

theorem storing_eq_some (ht : b.registry.getTopic name = some t) (hc : t.calls[i]? = some c)
    (hpc : c.pc = .store) : Broker.storing b name i = some t := by
  rw [Broker.storing, ht, Option.filter_some, hc]
  simp [hpc]

/-- A call that makes its store is from then on either among the written or among the lost. -/
theorem mem_written_or_lost {b : Broker} (hm : Broker.Moves a name i c)
    (ht : b.registry.getTopic name = some t) (hc : t.calls[i]? = some c) (hpc : c.pc = .store) :
    (name, i) ∈ b.written a ∨ (name, i) ∈ b.lost a := by
  have hs := storing_eq_some ht hc hpc
  rcases hm with rfl | ⟨-, kept, rfl⟩
  · simp only [Broker.written, Broker.lost, hs]
    cases t.wallWriter.failed with
    | true => exact .inr List.mem_cons_self
    | false => exact .inl List.mem_cons_self
  · simp only [Broker.lost, hs]
    exact .inr List.mem_cons_self

theorem AllWritten.step (h : AllWritten x) (hc : StoresSucceed x a) (hs : x.step a = some y) :
    AllWritten y := by
  obtain ⟨b, hb, rfl⟩ := Option.map_eq_some_iff.1 hs
  constructor
  case lost => exact List.append_eq_nil_iff.2 ⟨h.lost, hc⟩
  case written =>
    intro name i c hcall hp
    apply List.mem_append.2
    rcases (Broker.step_server hb).callOf_cases hcall with
      hcall | ⟨-, hpc⟩ | ⟨t, d, pc, e, hm, ht, hd, hn, rfl⟩
    · exact .inl (h.written name i c hcall hp)
    · rw [hpc, Operation.start_pastStore] at hp
      cases hp
    · rcases hn.store_of_pastStore hp with hp | hpc
      · exact .inl (h.written name i d (Option.bind_eq_some_iff.2 ⟨t, ht, hd⟩) hp)
      · apply Or.inr
        apply (mem_written_or_lost hm ht hd hpc).resolve_right
        rw [hc]
        exact List.not_mem_nil

theorem confirms_pastStore {b : Broker} (h : b.confirms s = some (name, i)) :
    ∃ c, b.callOf name i = some c ∧ c.pc.pastStore = true := by
  obtain ⟨session, -, h⟩ := Option.bind_eq_some_iff.1 h
  split at h
  · obtain ⟨c, hc, h⟩ := Option.bind_eq_some_iff.1 h
    split at h
    · rename_i hpc
      split at h
      · rename_i hch
        cases h
        refine ⟨c, hc, ?_⟩
        rw [hpc]
        exact hch
      · cases h
    · cases h
  · cases h

theorem AllWritten.onlyLogged (h : AllWritten x) (a : BrokerAction) : OnlyLogged x a where
  applied b name p hs hq := by
    obtain ⟨i, t, c, pc, e, hm, ht, hc, hn, hb⟩ := (Broker.step_server hs).queue_cases hq
    have hpc : c.pc = .mutate := by
      rw [Broker.queue, Broker.queue, ht, hb] at hq
      exact hn.mutates hq
    have hcall := h.written name i c (Option.bind_eq_some_iff.2 ⟨t, ht, hc⟩) (by rw [hpc]; rfl)
    rcases hm with ha | ⟨hst, -⟩
    · exact ⟨i, ha, hcall⟩
    · cases hst.symm.trans hpc
  acknowledged s name i _ hs := by
    obtain ⟨c, hc, hp⟩ := confirms_pastStore hs
    exact h.written name i c hc hp
  untouched b name i p _ hl := by
    rw [h.lost] at hl
    cases hl

theorem of_storing {b : Broker} (h : b.storing name i = some t) :
    b.registry.getTopic name = some t ∧ ∃ c, t.calls[i]? = some c ∧ c.pc = .store := by
  obtain ⟨ht, hc⟩ := Option.filter_eq_some_iff.1 h
  obtain ⟨c, hc, hpc⟩ := (Option.any_eq_true _ _).1 hc
  exact ⟨ht, c, hc, of_decide_eq_true hpc⟩

/-- The action is the step of a call that makes its store. -/
def Stores (b : Broker) (a : BrokerAction) (name : Text) (i : Nat) : Prop :=
  ∃ t c, Broker.Moves a name i c ∧ b.registry.getTopic name = some t ∧ t.calls[i]? = some c ∧
    c.pc = .store

theorem of_mem_written {b : Broker} (h : (name, i) ∈ b.written a) :
    Stores b a name i ∧ (name, i) ∉ b.lost a := by
  cases a with
  | advance n j =>
    simp only [Broker.written, Broker.lost] at h ⊢
    split at h
    · rename_i t hs
      obtain ⟨ht, c, hc, hpc⟩ := of_storing hs
      cases hf : t.wallWriter.failed with
      | true =>
        rw [hf] at h
        cases h
      | false =>
        simp only [hf, Bool.false_eq_true, if_false, List.mem_singleton, Prod.mk.injEq] at h
        obtain ⟨rfl, rfl⟩ := h
        refine ⟨⟨t, c, .inl rfl, ht, hc, hpc⟩, ?_⟩
        simp only [Bool.false_eq_true, if_false, List.not_mem_nil, not_false_eq_true]
    · cases h
  | _ => cases h

theorem of_mem_lost {b : Broker} (h : (name, i) ∈ b.lost a) : Stores b a name i := by
  cases a with
  | advance n j =>
    simp only [Broker.lost] at h
    split at h
    · rename_i t hs
      obtain ⟨ht, c, hc, hpc⟩ := of_storing hs
      obtain ⟨-, h⟩ := List.mem_ite_nil_right.1 h
      cases List.mem_singleton.1 h
      exact ⟨t, c, .inl rfl, ht, hc, hpc⟩
    · cases h
  | failStore n j kept =>
    obtain ⟨hs, h⟩ := List.mem_ite_nil_right.1 h
    cases List.mem_singleton.1 h
    obtain ⟨t, hs⟩ := Option.isSome_iff_exists.1 hs
    obtain ⟨ht, c, hc, hpc⟩ := of_storing hs
    exact ⟨t, c, .inr ⟨hpc, kept, rfl⟩, ht, hc, hpc⟩
  | _ => cases h

theorem Stores.next {b b' : Broker} (h : Stores b a name i) (hs : b.step a = some b') :
    ∃ c, b'.callOf name i = some c ∧ c.pc = .releaseWall := by
  obtain ⟨t, c, hm, ht, hc, hpc⟩ := h
  obtain ⟨pc, e, hn, hb⟩ := Broker.step_moves hm hs ht hc
  exact ⟨{ c with pc := pc }, Broker.callOf_advanced hb hc, hn.afterStore hpc⟩

theorem Stores.pc {b : Broker} (h : Stores b a name i) (hc : b.callOf name i = some c) :
    c.pc = .store := by
  obtain ⟨t, d, -, ht, hd, hpc⟩ := h
  rw [Broker.callOf, ht, Option.bind_some, hd] at hc
  cases hc
  exact hpc

def Unchanged (b : Broker) (name : Text) (i : Nat) : Prop :=
  ∃ c, b.callOf name i = some c ∧ (c.pc = .releaseWall ∨ c.pc = .mutate)

structure Pending (x : Audited) : Prop where
  coherent : x.broker.registry.All Topic.Coherent
  written : ∀ name i, (name, i) ∈ x.written →
    ∃ c, x.broker.callOf name i = some c ∧ c.pc.pastStore = true
  lost : ∀ name i, (name, i) ∈ x.lost → (name, i) ∉ x.written ∧ Unchanged x.broker name i

theorem Pending.step (h : Pending x) (hc : OnlyLogged x a) (hs : x.step a = some y) :
    Pending y := by
  obtain ⟨b, hb, rfl⟩ := Option.map_eq_some_iff.1 hs
  have hserver := Broker.step_server hb
  constructor
  case coherent =>
    exact Broker.topics_rule (Topic.coherent_init _) (fun _ _ _ h hs => h.step hs) _ _ _
      h.coherent hb
  case written =>
    intro name i hw
    rcases List.mem_append.1 hw with hw | hw
    · obtain ⟨c, hcall, hp⟩ := h.written name i hw
      rcases hserver.callOf_kept hcall with hcall | ⟨t, pc, e, -, -, hd, hn, ht⟩
      · exact ⟨c, hcall, hp⟩
      · exact ⟨{ c with pc := pc }, Broker.callOf_advanced ht hd, hn.pastStore hp⟩
    · obtain ⟨c, hcall, hpc⟩ := (of_mem_written hw).1.next hb
      exact ⟨c, hcall, by rw [hpc]; rfl⟩
  case lost =>
    intro name i hl
    rcases List.mem_append.1 hl with hl' | hl'
    · obtain ⟨hw, c, hcall, hpc⟩ := h.lost name i hl'
      constructor
      · intro hmem
        apply hw
        apply (List.mem_append.1 hmem).resolve_right
        intro hmem
        have hst := (of_mem_written hmem).1.pc hcall
        rcases hpc with hpc | hpc <;> cases hst.symm.trans hpc
      · rcases hserver.callOf_kept hcall with hcall | ⟨t, pc, e, hm, ht, hd, hn, hb'⟩
        · exact ⟨c, hcall, hpc⟩
        · have hadvance : a = .advance name i := by
            apply hm.resolve_right
            rintro ⟨hst, -⟩
            rcases hpc with hpc | hpc <;> cases hst.symm.trans hpc
          rcases hpc with hpc | hpc
          · exact ⟨{ c with pc := pc }, Broker.callOf_advanced hb' hd, .inr (hn.afterWall hpc)⟩
          · -- The step would change the partition of a call whose record is lost.
            have hco := h.coherent.getTopic ht
            have hq := hc.untouched b name i c.partition hadvance hl' hb
            rw [Broker.queue, Broker.queue, ht, hb'] at hq
            exact (hn.changes hpc (hco.sound i c hd) (hco.inRange i c hd) hq).elim
    · have hst := of_mem_lost hl'
      obtain ⟨c, hcall, hpc⟩ := hst.next hb
      refine ⟨fun hmem => ?_, c, hcall, .inl hpc⟩
      rcases List.mem_append.1 hmem with hmem | hmem
      · obtain ⟨d, hd, hp⟩ := h.written name i hmem
        rw [hst.pc hd] at hp
        cases hp
      · exact (of_mem_written hmem).2 hl'

theorem pending_init : Pending {} where
  coherent := by
    intro x hx
    cases hx
  written := by
    intro name i hw
    cases hw
  lost := by
    intro name i hl
    cases hl

theorem lost_prefix (hr : exec step x acts = some y) : x.lost <+: y.lost := by
  apply exec_invariant (I := fun z => x.lost <+: z.lost) _ (List.prefix_refl _) hr
  intro z a u hz hs
  obtain ⟨b, -, rfl⟩ := Option.map_eq_some_iff.1 hs
  exact hz.trans (List.prefix_append _ _)

theorem storesSucceed_of_lost (hr : exec step x acts = some y) (hl : y.lost = []) :
    AllSteps step StoresSucceed x acts := by
  induction acts generalizing x with
  | nil => trivial
  | cons a acts ih =>
    obtain ⟨z, hs, hz⟩ := exec_cons_some.1 hr
    constructor
    · have hzl : z.lost = [] := List.prefix_nil.1 (hl ▸ lost_prefix hz)
      obtain ⟨b, -, rfl⟩ := Option.map_eq_some_iff.1 hs
      exact (List.append_eq_nil_iff.1 hzl).2
    · intro u hu
      obtain rfl := Option.some.inj (hs.symm.trans hu)
      exact ih hz

/-- While no write or flush fails, nothing is applied or acknowledged without its record; and in
a run that finishes all its calls one failure is enough for that to go wrong. -/
theorem only_logged_iff (acts : List BrokerAction) :
    (AllSteps step StoresSucceed {} acts → AllSteps step OnlyLogged {} acts) ∧
      ∀ x, exec step {} acts = some x → x.broker.Idle →
        AllSteps step OnlyLogged {} acts → AllSteps step StoresSucceed {} acts := by
  constructor
  · exact AllSteps.imp (I := AllWritten) (fun _ _ _ h hc hs => h.step hc hs)
      (fun _ a h _ => h.onlyLogged a) allWritten_init
  · intro x hr hidle h
    apply storesSucceed_of_lost hr
    have hx := exec_invariant_of_allSteps (fun _ _ _ h hc hs => h.step hc hs) pending_init h hr
    apply List.eq_nil_iff_forall_not_mem.2
    intro ⟨name, i⟩ hl
    obtain ⟨-, c, hc, hpc⟩ := hx.lost name i hl
    have hf := hidle name i c hc
    rcases hpc with hpc | hpc <;> rw [hpc] at hf <;> cases hf

/-- A PUSH of "b" to the topic "a" with its only partition. -/
def pushFrame : List UInt8 := [0x55, 0x43, 0x4F, 0x4E, 1, 0, 1, 0, 0, 0, 1, 0, 97, 98]

/-- The write of its record fails. -/
def lossyRun : List BrokerAction :=
  [.connect pushFrame, .receive 0 ⟨true, 0, fun _ => 0, .replicate 5 0⟩, .advance [97] 0,
    .advance [97] 0, .failStore [97] 0 0, .advance [97] 0]

theorem only_logged_fails : ¬ ∀ acts, AllSteps step OnlyLogged {} acts := by
  intro h
  have hs : (exec step {} lossyRun).isSome = true := by decide +kernel
  have hx := (h (lossyRun ++ [.advance [97] 0])).apply_next (Option.some_get hs).symm
  obtain ⟨i, -, hw⟩ := hx.applied _ [97] 0 rfl fun hq => by cases congrArg List.length hq
  cases hw

end Audited
end Rpc
end Noctua
