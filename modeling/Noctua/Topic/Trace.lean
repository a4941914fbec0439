import Noctua.Topic.Coherent
import Mathlib.Data.List.Nodup

namespace Noctua
open Transition Wall
set_option autoImplicit true

namespace TraceEvent

def record : TraceEvent → Option WallData
  | .stored d => some d
  | _ => none

def pushedMessage : TraceEvent → Option Message
  | .pushed m => some m
  | _ => none

def poppedMessage : TraceEvent → Option Message
  | .popped m => some m
  | _ => none

end TraceEvent

def Pc.hasPushed : Pc → Bool
  | .releaseWrite .pushed | .finished .pushed => true
  | _ => false

def Effect.appends : Effect → List Message
  | .push m => [m]
  | _ => []

def Effect.drops : Effect → List Message → List Message
  | .pop, q => q.head?.toList
  | _, _ => []

theorem Effect.balance (e : Effect) (q : List Message) :
    q ++ e.appends = e.drops q ++ e.onQueue q := by
  cases e with
  | push m => rfl
  | pop => cases q <;> simp [appends, drops, onQueue]
  | _ => exact List.append_nil q

namespace Topic
variable {t u : Topic} {c d : Call} {p q : UInt16} {e : Effect} {hash : Request → Nat}

def texts (t : Topic) (p : UInt16) : List Text := (t.queue p).map Message.text

def eventsAt (t : Topic) (p : UInt16) : List TraceEvent :=
  (t.trace.filter fun x => x.1 = p).map Prod.snd

def pushed (t : Topic) (p : UInt16) : List Message :=
  (t.eventsAt p).filterMap TraceEvent.pushedMessage

def popped (t : Topic) (p : UInt16) : List Message :=
  (t.eventsAt p).filterMap TraceEvent.poppedMessage

def emitted (t : Topic) (i : Nat) (c : Call) : Effect → List TraceEvent
  | .none | .failStore _ _ => []
  | .store d => if t.wallWriter.failed then [] else [.stored d]
  | .push m => [.pushed m]
  | .pop => (t.queue c.partition).head?.toList.map .popped
  | .respond a => [.respond i c.operation a]

theorem advanced_trace (t : Topic) (i : Nat) (c : Call) (pc : Pc) (e : Effect) :
    (t.advanced i c pc e).trace = t.trace ++ (t.emitted i c e).map (Prod.mk c.partition) := by
  change (t.perform i c e).trace = _
  cases e with
  | none | failStore => exact (List.append_nil _).symm
  | store d =>
    simp only [perform, emitted]
    split
    · exact (List.append_nil _).symm
    · rfl
  | push | respond => rfl
  | pop =>
    simp only [perform, emitted]
    split
    · rename_i hq
      rw [hq]
      exact (List.append_nil _).symm
    · rename_i hq
      rw [hq]
      rfl

theorem eventsAt_append (t : Topic) (es : List TraceEvent) (p : UInt16)
    (h : u.trace = t.trace ++ es.map (Prod.mk q)) :
    u.eventsAt p = t.eventsAt p ++ if q = p then es else [] := by
  simp only [eventsAt, h, List.filter_append, List.map_append, List.filter_map,
    Function.comp_def]
  split
  · rename_i hq
    simp [hq, Function.comp_def]
  · rename_i hq
    simp [hq]

theorem eventsAt_advanced (t : Topic) (i : Nat) (c : Call) (pc : Pc) (e : Effect) (p : UInt16) :
    (t.advanced i c pc e).eventsAt p =
      t.eventsAt p ++ if c.partition = p then t.emitted i c e else [] :=
  eventsAt_append t _ p (advanced_trace t i c pc e)

theorem eventsAt_invoked (t : Topic) (client : Nat) (op : Operation) (p q : UInt16) :
    (t.invoked client op p).eventsAt q =
      t.eventsAt q ++ if p = q then [.invoke t.calls.length op] else [] :=
  eventsAt_append t [.invoke t.calls.length op] q rfl

theorem eventsAt_advanced_self : (t.advanced i c pc e).eventsAt c.partition =
    t.eventsAt c.partition ++ t.emitted i c e := by
  rw [eventsAt_advanced, if_pos rfl]

theorem eventsAt_advanced_ne (h : p ≠ c.partition) :
    (t.advanced i c pc e).eventsAt p = t.eventsAt p := by
  rw [eventsAt_advanced, if_neg h.symm, List.append_nil]

@[simp] theorem invoked_pushed (t : Topic) (client : Nat) (op : Operation) (p q : UInt16) :
    (t.invoked client op p).pushed q = t.pushed q := by
  rw [pushed, eventsAt_invoked, List.filterMap_append]
  split <;> exact List.append_nil _

@[simp] theorem invoked_popped (t : Topic) (client : Nat) (op : Operation) (p q : UInt16) :
    (t.invoked client op p).popped q = t.popped q := by
  rw [popped, eventsAt_invoked, List.filterMap_append]
  split <;> exact List.append_nil _

theorem emitted_pushed (t : Topic) (i : Nat) (c : Call) (e : Effect) :
    (t.emitted i c e).filterMap TraceEvent.pushedMessage = e.appends := by
  cases e with
  | store d => simp only [emitted]; split <;> rfl
  | pop => simp only [emitted]; cases t.queue c.partition <;> rfl
  | _ => rfl

theorem emitted_popped (t : Topic) (i : Nat) (c : Call) (e : Effect) :
    (t.emitted i c e).filterMap TraceEvent.poppedMessage = e.drops (t.queue c.partition) := by
  cases e with
  | store d => simp only [emitted]; split <;> rfl
  | pop => simp only [emitted, Effect.drops]; cases t.queue c.partition <;> rfl
  | _ => rfl

theorem pushed_advanced (t : Topic) (i : Nat) (c : Call) (pc : Pc) (e : Effect) (p : UInt16) :
    (t.advanced i c pc e).pushed p =
      t.pushed p ++ if c.partition = p then e.appends else [] := by
  rw [pushed, eventsAt_advanced, List.filterMap_append]
  split
  · rw [emitted_pushed]
    rfl
  · rfl

theorem popped_advanced (t : Topic) (i : Nat) (c : Call) (pc : Pc) (e : Effect) (p : UInt16) :
    (t.advanced i c pc e).popped p =
      t.popped p ++ if c.partition = p then e.drops (t.queue p) else [] := by
  rw [popped, eventsAt_advanced, List.filterMap_append]
  split
  · rename_i hp
    rw [emitted_popped, hp]
    rfl
  · rfl

theorem popped_advanced_self : (t.advanced i c pc e).popped c.partition =
    t.popped c.partition ++ e.drops (t.queue c.partition) := by
  rw [popped_advanced, if_pos rfl]

theorem Next.hasPushed (hn : Next t i c pc e) (h : c.pc.hasPushed = true) :
    pc.hasPushed = true := by
  cases hn with
  | @answerWrite a hpc =>
    rw [hpc] at h
    cases a with
    | pushed => rfl
    | _ => cases h
  | acquireRead hpc | readFront hpc | rejectFirst hpc | passFirst hpc | answerRead hpc
  | releaseRead hpc | acquireRemove hpc | acquirePush hpc | rejectSecond hpc | passSecond hpc
  | acquireWall hpc | store hpc | failStore hpc | releaseWall hpc | push hpc | pop hpc =>
    rw [hpc] at h
    cases h

theorem Next.appends (hn : Next t i c pc e) (hm : m ∈ e.appends) :
    m.origin = i ∧ e.appends = [m] ∧ c.pc.hasPushed = false ∧ pc.hasPushed = true := by
  cases hn with
  | push hpc hop =>
    obtain rfl := List.mem_singleton.1 hm
    exact ⟨rfl, rfl, by rw [hpc]; rfl, rfl⟩
  | _ => cases hm

/-- The messages of a partition are accounted for: each one pushed was pushed by a call of its
own and is either dropped or still there. -/
structure Accounted (t : Topic) : Prop where
  conserved : ∀ p, t.pushed p = t.popped p ++ t.queue p
  origins : ∀ p, ∀ m ∈ t.pushed p, ∃ c, t.calls[m.origin]? = some c ∧ c.pc.hasPushed = true
  distinct : ∀ p, (t.pushed p).Nodup

theorem accounted_init (n : Nat) : Accounted (init n) where
  conserved := by
    intro p
    rw [init_queue]
    rfl
  origins := by
    intro p m hm
    cases hm
  distinct := fun _ => List.nodup_nil

theorem Accounted.invoked (h : Accounted t) : Accounted (t.invoked client op p) where
  conserved := by
    intro q
    rw [invoked_pushed, invoked_popped, invoked_queue]
    exact h.conserved q
  origins := by
    intro q m hm
    rw [invoked_pushed] at hm
    obtain ⟨c, hc, hp⟩ := h.origins q m hm
    exact ⟨c, calls_invoked.2 (.inl hc), hp⟩
  distinct := by
    intro q
    rw [invoked_pushed]
    exact h.distinct q

theorem Accounted.advanced (h : Accounted t) (hc : t.calls[i]? = some c)
    (hr : c.partition.toNat < t.storage.length) (hn : Next t i c pc e) :
    Accounted (t.advanced i c pc e) where
  conserved := by
    intro p
    rw [pushed_advanced, popped_advanced]
    by_cases hp : c.partition = p
    · subst p
      rw [if_pos rfl, if_pos rfl, advanced_queue_self hr, h.conserved, List.append_assoc,
        e.balance, List.append_assoc]
    · rw [if_neg hp, if_neg hp, advanced_queue_ne (Ne.symm hp), List.append_nil, List.append_nil]
      exact h.conserved p
  origins := by
    intro p m hm
    rw [pushed_advanced] at hm
    rcases List.mem_append.1 hm with hm | hm
    · obtain ⟨d, hd, hpd⟩ := h.origins p m hm
      by_cases hi : m.origin = i
      · have hdc : d = c := Option.some.inj (hd.symm.trans (hi.symm ▸ hc))
        exact ⟨_, (calls_advanced hc).2 (.inl ⟨hi, rfl⟩), hn.hasPushed (hdc ▸ hpd)⟩
      · exact ⟨d, calls_advanced_ne hc hi hd, hpd⟩
    · split at hm
      · obtain ⟨ho, -, -, hpc⟩ := hn.appends hm
        exact ⟨_, (calls_advanced hc).2 (.inl ⟨ho, rfl⟩), hpc⟩
      · cases hm
  distinct := by
    intro p
    rw [pushed_advanced]
    split
    · cases happ : e.appends with
      | nil => exact (List.append_nil (t.pushed p)).symm ▸ h.distinct p
      | cons m ms =>
        obtain ⟨ho, hms, hpc, -⟩ := hn.appends (happ ▸ List.mem_cons_self : m ∈ e.appends)
        rw [← happ, hms]
        apply List.Nodup.append (h.distinct p) (List.nodup_singleton m)
        rw [List.disjoint_singleton]
        intro hm
        obtain ⟨d, hd, hpd⟩ := h.origins p m hm
        obtain rfl := Option.some.inj (hd.symm.trans (ho.symm ▸ hc))
        exact absurd hpd (hpc ▸ Bool.false_ne_true)
    · exact (List.append_nil (t.pushed p)).symm ▸ h.distinct p

theorem accounted_step (hh : Coherent t ∧ Accounted t) (hs : t.step hash a = some u) :
    Coherent u ∧ Accounted u := by
  apply step_rule (I := fun t => Coherent t ∧ Accounted t) _ _ t a u hh hs
  · intro t client op p h hp
    exact ⟨h.1.invoked hp, h.2.invoked⟩
  · intro t i c pc e h hc hn
    exact ⟨h.1.advanced hc hn, h.2.advanced hc (h.1.inRange i c hc) hn⟩

theorem accounted_of_exec (h : exec (step hash) (init n) acts = some t) : Accounted t :=
  (exec_invariant (fun _ _ _ h hs => accounted_step h hs)
    ⟨coherent_init n, accounted_init n⟩ h).2

end Topic
end Noctua
