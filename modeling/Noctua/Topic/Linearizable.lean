import Noctua.Topic.Trace
import Noctua.Library.Fifo

namespace Noctua
open Transition Linearization
set_option autoImplicit true

def Operation.fifo : Operation → Fifo.Op Text
  | .push r _ => .push r.message.text
  | .read _ => .read
  | .remove r _ => .remove r.message.text

def Answer.fifo : Answer → Fifo.Res Text
  | .pushed => .pushed
  | .message m => .front (m.map Message.text)
  | .removed taken => .removed taken

abbrev CallEvent := Event (Fifo.Op Text) (Fifo.Res Text)

def TraceEvent.callEvent : TraceEvent → Option CallEvent
  | .invoke i op => some (.invoke i op.fifo)
  | .respond i op a => some (.respond i op.fifo a.fifo)
  | _ => none

/-- The call has taken effect under the write lock and has not returned yet. -/
def Pc.decided : Pc → Bool
  | .releaseWrite _ => true
  | _ => false

theorem Pc.holdsWrite_of_decided {pc : Pc} (h : pc.decided = true) : pc.holdsWrite = true := by
  cases pc <;> first | rfl | cases h

def Effect.answers (i : Nat) (op : Operation) : Effect → List CallEvent
  | .respond a => [.respond i op.fifo a.fifo]
  | _ => []

theorem apply_remove_ne {q : List Message} {x : Text} (h : headText q ≠ some x) :
    Fifo.apply (q.map Message.text) (.remove x) = (q.map Message.text, .removed false) := by
  have hh : (q.map Message.text).head? = headText q := List.head?_map
  exact if_neg (hh ▸ h)

theorem apply_remove_eq {q : List Message} {x : Text} (h : headText q = some x) :
    Fifo.apply (q.map Message.text) (.remove x) = (q.tail.map Message.text, .removed true) := by
  have hh : (q.map Message.text).head? = headText q := List.head?_map
  rw [Fifo.apply, if_pos (hh.trans h), List.map_tail]

theorem apply_read (q : List Message) :
    Fifo.apply (q.map Message.text) .read = (q.map Message.text, .front (headText q)) :=
  congrArg (fun x => (q.map Message.text, Fifo.Res.front x)) List.head?_map

namespace Topic
variable {t u : Topic} {c d : Call} {p q : UInt16} {e : Effect} {hash : Request → Nat}

def history (t : Topic) (p : UInt16) : List CallEvent :=
  (t.eventsAt p).filterMap TraceEvent.callEvent

theorem emitted_callEvent (t : Topic) (i : Nat) (c : Call) (e : Effect) :
    (t.emitted i c e).filterMap TraceEvent.callEvent = e.answers i c.operation := by
  cases e with
  | store d => simp only [emitted]; split <;> rfl
  | pop => simp only [emitted]; cases t.queue c.partition <;> rfl
  | _ => rfl

theorem history_advanced (t : Topic) (i : Nat) (c : Call) (pc : Pc) (e : Effect) (p : UInt16) :
    (t.advanced i c pc e).history p =
      t.history p ++ if c.partition = p then e.answers i c.operation else [] := by
  rw [history, eventsAt_advanced, List.filterMap_append]
  split
  · rw [emitted_callEvent]
    rfl
  · rfl

theorem history_invoked (t : Topic) (client : Nat) (op : Operation) (p q : UInt16) :
    (t.invoked client op p).history q =
      t.history q ++ if p = q then [.invoke t.calls.length op.fifo] else [] := by
  rw [history, eventsAt_invoked, List.filterMap_append]
  split <;> rfl

/-- Each step keeps the list, decides the effect of its call under the write lock, or returns
an answer decided now under the read lock or earlier under the write lock. -/
theorem Next.decided_cases (hn : Next t i c pc e) (hs : c.Sound (t.queue c.partition)) :
    (e.answers i c.operation = [] ∧ (∀ q, e.onQueue q = q) ∧ c.pc.decided = false ∧
      pc.decided = false) ∨
    (e.answers i c.operation = [] ∧ c.pc.holdsWrite = true ∧ c.pc.decided = false ∧
      ∃ a, pc = .releaseWrite a ∧
        Fifo.apply ((t.queue c.partition).map Message.text) c.operation.fifo =
          ((e.onQueue (t.queue c.partition)).map Message.text, a.fifo)) ∨
    (∃ a, e = .respond a ∧ pc = .finished a ∧ c.pc.holdsRead = true ∧ c.pc.decided = false ∧
      Fifo.apply ((t.queue c.partition).map Message.text) c.operation.fifo =
        ((t.queue c.partition).map Message.text, a.fifo)) ∨
    (∃ a, e = .respond a ∧ pc = .finished a ∧ c.pc = .releaseWrite a) := by
  obtain ⟨client, op, p, pc₀⟩ := c
  cases hn with
  | rejectSecond hpc hop hq hne =>
    cases hpc
    cases hop
    exact .inr (.inl ⟨rfl, rfl, rfl, _, rfl, apply_remove_ne (headText_ne hq hne)⟩)
  | push hpc hop =>
    cases hpc
    cases hop
    refine .inr (.inl ⟨rfl, rfl, rfl, _, rfl, ?_⟩)
    rw [Effect.onQueue, List.map_append]
    rfl
  | pop hpc hop =>
    cases hpc
    cases hop
    exact .inr (.inl ⟨rfl, rfl, rfl, _, rfl, apply_remove_eq hs⟩)
  | @answerRead a hpc =>
    cases hpc
    refine .inr (.inr (.inl ⟨a, rfl, rfl, rfl, rfl, ?_⟩))
    cases op with
    | push => exact hs.elim
    | read =>
      have ha : a = .message (t.queue p).head? := Option.some.inj hs
      rw [ha]
      exact apply_read _
    | remove r padding =>
      obtain ⟨rfl, hne⟩ := hs
      exact apply_remove_ne hne
  | @answerWrite a hpc => exact .inr (.inr (.inr ⟨a, rfl, rfl, hpc⟩))
  | acquireRead hpc | readFront hpc | rejectFirst hpc | passFirst hpc | releaseRead hpc
  | acquireRemove hpc | acquirePush hpc | passSecond hpc | acquireWall hpc | store hpc
  | failStore hpc | releaseWall hpc =>
    cases hpc
    exact .inl ⟨rfl, fun _ => rfl, rfl, rfl⟩

structure Recounts (t : Topic) : Prop where
  wellFormed : ∀ p, WellFormed (t.history p)
  numbered : ∀ p, ∀ i ∈ invocations (t.history p), i < t.calls.length
  invoked : ∀ (i : Nat) (c : Call), t.calls[i]? = some c →
    Event.invoke i c.operation.fifo ∈ t.history c.partition
  answered : ∀ p i, i ∈ (responses (t.history p)).map Completed.id →
    ∃ c a, t.calls[i]? = some c ∧ c.pc = .finished a
  returned : ∀ (i : Nat) (c : Call) (a : Answer), t.calls[i]? = some c → c.pc = .finished a →
    Event.respond i c.operation.fifo a.fifo ∈ t.history c.partition

theorem recounts_init (n : Nat) : Recounts (init n) where
  wellFormed _ := .nil
  numbered := by
    intro p i hi
    cases hi
  invoked := by
    intro i c hc
    cases hc
  answered := by
    intro p i hi
    cases hi
  returned := by
    intro i c a hc
    cases hc

theorem Recounts.afterInvoke (h : Recounts t) : Recounts (t.invoked client op p) where
  wellFormed := by
    intro q
    rw [history_invoked]
    split
    · exact (h.wellFormed q).invoke fun hi => Nat.lt_irrefl _ (h.numbered q _ hi)
    · exact (List.append_nil (t.history q)).symm ▸ h.wellFormed q
  numbered := by
    intro q i hi
    change i < (t.calls ++ [_]).length
    rw [history_invoked, invocations_append] at hi
    rw [List.length_append]
    rcases List.mem_append.1 hi with hi | hi
    · exact Nat.lt_succ_of_lt (h.numbered q i hi)
    · split at hi
      · rw [List.mem_singleton.1 hi]
        exact Nat.lt_succ_self _
      · cases hi
  invoked := by
    intro i c hc
    rw [history_invoked]
    rcases calls_invoked.1 hc with hc | ⟨rfl, rfl⟩
    · exact List.mem_append_left _ (h.invoked i c hc)
    · rw [if_pos rfl]
      exact List.mem_append_right _ (List.mem_singleton_self _)
  answered := by
    intro q i hi
    rw [history_invoked, responses_append, List.map_append] at hi
    rcases List.mem_append.1 hi with hi | hi
    · obtain ⟨c, a, hc, ha⟩ := h.answered q i hi
      exact ⟨c, a, calls_invoked.2 (.inl hc), ha⟩
    · split at hi <;> cases hi
  returned := by
    intro i c a hc ha
    rw [history_invoked]
    rcases calls_invoked.1 hc with hc | ⟨rfl, rfl⟩
    · exact List.mem_append_left _ (h.returned i c a hc ha)
    · cases op <;> cases ha

theorem Next.answers (hn : Next t i c pc e) :
    e.answers i c.operation = [] ∧ (∀ a, pc ≠ .finished a) ∨
      ∃ a, pc = .finished a ∧ e.answers i c.operation = [.respond i c.operation.fifo a.fifo] := by
  cases hn with
  | answerRead | answerWrite => exact .inr ⟨_, rfl, rfl⟩
  | _ => exact .inl ⟨rfl, fun _ => Pc.noConfusion⟩

theorem Recounts.afterAdvance (h : Recounts t) (hc : t.calls[i]? = some c)
    (hn : Next t i c pc e) : Recounts (t.advanced i c pc e) := by
  have hkept {j : Nat} {d : Call} {a : Answer} (hd : t.calls[j]? = some d)
      (hp : d.pc = .finished a) : (t.advanced i c pc e).calls[j]? = some d := by
    apply calls_advanced_ne hc _ hd
    rintro rfl
    obtain rfl := Option.some.inj (hc.symm.trans hd)
    exact hn.unfinished hp
  have hfresh : i ∉ (responses (t.history c.partition)).map Completed.id := by
    intro hi
    obtain ⟨d, a, hd, ha⟩ := h.answered _ i hi
    obtain rfl := Option.some.inj (hc.symm.trans hd)
    exact hn.unfinished ha
  constructor
  case wellFormed =>
    intro p
    rw [history_advanced]
    split
    · subst p
      rcases hn.answers with ⟨he, -⟩ | ⟨a, -, he⟩
      · rw [he, List.append_nil]
        exact h.wellFormed _
      · rw [he]
        exact (h.wellFormed _).respond (h.invoked i c hc) hfresh
    · rw [List.append_nil]
      exact h.wellFormed p
  case numbered =>
    intro p j hj
    rw [history_advanced, invocations_append] at hj
    have hlen : (t.advanced i c pc e).calls.length = t.calls.length := by
      simp only [advanced, setPc, perform_calls, List.length_set]
    rw [hlen]
    rcases List.mem_append.1 hj with hj | hj
    · exact h.numbered p j hj
    · split at hj
      · rcases hn.answers with ⟨he, -⟩ | ⟨a, -, he⟩ <;> rw [he] at hj <;> cases hj
      · cases hj
  case invoked =>
    intro j d hd
    rw [history_advanced]
    apply List.mem_append_left
    rcases (calls_advanced hc).1 hd with ⟨rfl, rfl⟩ | ⟨-, hd⟩
    · exact h.invoked j c hc
    · exact h.invoked j d hd
  case answered =>
    intro p j hj
    rw [history_advanced, responses_append, List.map_append] at hj
    rcases List.mem_append.1 hj with hj | hj
    · obtain ⟨d, a, hd, ha⟩ := h.answered p j hj
      exact ⟨d, a, hkept hd ha, ha⟩
    · split at hj
      · rcases hn.answers with ⟨he, -⟩ | ⟨a, ha, he⟩
        · rw [he] at hj
          cases hj
        · rw [he] at hj
          obtain rfl := List.mem_singleton.1 hj
          exact ⟨_, a, calls_advanced_self hc, ha⟩
      · cases hj
  case returned =>
    intro j d a hd ha
    rw [history_advanced]
    rcases (calls_advanced hc).1 hd with ⟨rfl, rfl⟩ | ⟨-, hd⟩
    · rcases hn.answers with ⟨-, hne⟩ | ⟨b, hb, he⟩
      · exact (hne a ha).elim
      · obtain rfl : b = a := Pc.finished.inj (hb.symm.trans ha)
        rw [if_pos rfl, he]
        exact List.mem_append_right _ (List.mem_singleton_self _)
    · exact List.mem_append_left _ (h.returned j d a hd ha)

/-- The completed calls of each partition, in the order of their responses, are a run of the
FIFO list; its contents lag behind the partition by the call that is about to return. -/
structure Follows (t : Topic) : Prop where
  settled : ∀ p, (∀ (i : Nat) (c : Call), t.calls[i]? = some c → c.partition = p →
    c.pc.decided = false) →
      Legal (Fifo.object Text) [] (responses (t.history p)) ((t.queue p).map Message.text)
  lagging : ∀ (i : Nat) (c : Call) (a : Answer), t.calls[i]? = some c →
    c.pc = .releaseWrite a → ∃ q,
      Legal (Fifo.object Text) [] (responses (t.history c.partition)) q ∧
        Fifo.apply q c.operation.fifo = ((t.queue c.partition).map Message.text, a.fifo)

theorem follows_init (n : Nat) : Follows (init n) where
  settled := by
    intro p _
    rw [init_queue]
    exact .nil []
  lagging := by
    intro i c a hc
    cases hc

theorem Follows.afterInvoke (h : Follows t) : Follows (t.invoked client op p) := by
  have hresponses (q : UInt16) :
      responses ((t.invoked client op p).history q) = responses (t.history q) := by
    rw [history_invoked, responses_append]
    split <;> exact List.append_nil _
  constructor
  case settled =>
    intro q hq
    rw [hresponses]
    exact h.settled q fun i c hc hp => hq i c (calls_invoked.2 (.inl hc)) hp
  case lagging =>
    intro i c a hc ha
    rw [hresponses]
    rcases calls_invoked.1 hc with hc | ⟨rfl, rfl⟩
    · exact h.lagging i c a hc ha
    · cases op <;> cases ha

theorem history_advanced_self : (t.advanced i c pc e).history c.partition =
    t.history c.partition ++ e.answers i c.operation := by
  rw [history_advanced, if_pos rfl]

theorem history_advanced_ne (h : p ≠ c.partition) :
    (t.advanced i c pc e).history p = t.history p := by
  rw [history_advanced, if_neg h.symm, List.append_nil]

theorem history_stable {i j : Nat} (hco : Coherent t) (hc : t.calls[i]? = some c)
    (hn : Next t i c pc e) (hj : j ≠ i) (hd : t.calls[j]? = some d)
    (hw : d.pc.holdsWrite = true) :
    (t.advanced i c pc e).history d.partition = t.history d.partition := by
  by_cases hp : d.partition = c.partition
  · have hx := hco.locks j i d c hj hd hc hp hw
    have he : e.answers i c.operation = [] := by
      rcases hn.decided_cases (hco.sound i c hc) with
        ⟨he, -⟩ | ⟨he, -⟩ | ⟨b, -, -, hrd, -⟩ | ⟨b, -, -, hrel⟩
      · exact he
      · exact he
      · exact absurd (hrd.symm.trans hx.2) Bool.noConfusion
      · rw [hrel] at hx
        cases hx.1
    rw [hp, history_advanced_self, he, List.append_nil]
  · exact history_advanced_ne hp

theorem Follows.legal_of_locked {i : Nat} (h : Follows t) (hco : Coherent t)
    (hc : t.calls[i]? = some c)
    (hh : c.pc.holdsWrite = true ∨ c.pc.holdsRead = true) (own : c.pc.decided = false) :
    Legal (Fifo.object Text) [] (responses (t.history c.partition))
      ((t.queue c.partition).map Message.text) := by
  apply h.settled
  intro j d hd hp
  exact hco.locks.all_unmarked (fun _ => Pc.holdsWrite_of_decided) hc hh own hd hp

theorem Follows.settled_advanced (h : Follows t) (hco : Coherent t) (hc : t.calls[i]? = some c)
    (hn : Next t i c pc e)
    (hp : ∀ (j : Nat) (d : Call), (t.advanced i c pc e).calls[j]? = some d → d.partition = p →
      d.pc.decided = false) :
    Legal (Fifo.object Text) [] (responses ((t.advanced i c pc e).history p))
      (((t.advanced i c pc e).queue p).map Message.text) := by
  by_cases hpc : p = c.partition
  · subst hpc
    rw [advanced_queue_self (hco.inRange i c hc), history_advanced_self, responses_append]
    rcases hn.decided_cases (hco.sound i c hc) with
      ⟨he, hq, hd, -⟩ | ⟨-, -, -, a, rfl, -⟩ | ⟨a, rfl, -, hrd, hd, happ⟩ | ⟨a, rfl, -, hrel⟩
    · rw [he, hq]
      refine (List.append_nil (responses _)).symm ▸ h.settled _ fun j d hd' hpd => ?_
      exact unmarked_before hc hp (fun _ => hd) hd' hpd
    · exact absurd (hp i _ (calls_advanced_self hc) rfl) Bool.noConfusion
    · exact (h.legal_of_locked hco hc (.inr hrd) hd).snoc happ
    · obtain ⟨q, hl, happ⟩ := h.lagging i c a hc hrel
      exact hl.snoc happ
  · rw [advanced_queue_ne hpc, history_advanced_ne hpc]
    apply h.settled
    intro j d hd hpd
    exact unmarked_before hc hp (fun hcp => (hpc hcp.symm).elim) hd hpd

theorem Follows.lagging_self (h : Follows t) (hco : Coherent t) (hc : t.calls[i]? = some c)
    (hn : Next t i c (.releaseWrite a) e) :
    ∃ q, Legal (Fifo.object Text) []
        (responses ((t.advanced i c (.releaseWrite a) e).history c.partition)) q ∧
      Fifo.apply q c.operation.fifo =
        (((t.advanced i c (.releaseWrite a) e).queue c.partition).map Message.text, a.fifo) := by
  rw [history_advanced_self, advanced_queue_self (hco.inRange i c hc)]
  rcases hn.decided_cases (hco.sound i c hc) with
    ⟨-, -, -, hpc⟩ | ⟨he, hw, hd, b, hb, happ⟩ | ⟨b, -, hb, -⟩ | ⟨b, -, hb, -⟩
  · cases hpc
  · obtain rfl := Pc.releaseWrite.inj hb
    rw [he, List.append_nil]
    exact ⟨_, h.legal_of_locked hco hc (.inl hw) hd, happ⟩
  · cases hb
  · cases hb

theorem Follows.afterAdvance (h : Follows t) (hco : Coherent t) (hc : t.calls[i]? = some c)
    (hn : Next t i c pc e) : Follows (t.advanced i c pc e) := by
  constructor
  case settled =>
    intro p hp
    exact h.settled_advanced hco hc hn hp
  case lagging =>
    intro j d a hd ha
    rcases (calls_advanced hc).1 hd with ⟨rfl, rfl⟩ | ⟨hj, hd⟩
    · obtain rfl : pc = .releaseWrite a := ha
      exact h.lagging_self (c := c) hco hc hn
    · obtain ⟨q, hl, happ⟩ := h.lagging j d a hd ha
      have hw : d.pc.holdsWrite = true := by
        rw [ha]
        rfl
      rw [history_stable hco hc hn hj hd hw,
        queue_stable hco.locks hc hn (hco.inRange i c hc) hj hd (.inl hw)]
      exact ⟨q, hl, happ⟩

theorem follows_of_exec (h : exec (step hash) (init n) acts = some t) :
    Recounts t ∧ Follows t := by
  refine (exec_invariant (I := fun t => Coherent t ∧ Recounts t ∧ Follows t) ?_ ?_ h).2
  · apply step_rule
    · rintro t client op p ⟨hco, hr, hf⟩ hp
      exact ⟨hco.invoked hp, hr.afterInvoke, hf.afterInvoke⟩
    · rintro t i c pc e ⟨hco, hr, hf⟩ hc hn
      exact ⟨hco.advanced hc hn, hr.afterAdvance hc hn, hf.afterAdvance hco hc hn⟩
  · exact ⟨coherent_init n, recounts_init n, follows_init n⟩

/-- The completed calls on a partition have a linearization to a FIFO list. Once every call has
returned, the pushed texts are the removed ones followed by the contents. -/
def LinearizesToFifo (t : Topic) (p : UInt16) : Prop :=
  ∃ order q, IsLinearization (Fifo.object Text) (t.history p) order q ∧
    (∀ (i : Nat) (c : Call) (a : Answer), t.calls[i]? = some c → c.partition = p →
      c.pc = .finished a → ⟨i, c.operation.fifo, a.fifo⟩ ∈ order) ∧
    ((∀ c ∈ t.calls, c.partition = p → ∃ a, c.pc = .finished a) →
      order.filterMap Fifo.pushedBy = order.filterMap Fifo.removedBy ++ t.texts p)

theorem Follows.legal (h : Follows t) (p : UInt16) :
    ∃ q, Legal (Fifo.object Text) [] (responses (t.history p)) q := by
  by_cases hp : ∃ (i : Nat) (c : Call) (a : Answer), t.calls[i]? = some c ∧ c.partition = p ∧
      c.pc = .releaseWrite a
  · obtain ⟨i, c, a, hc, rfl, ha⟩ := hp
    obtain ⟨q, hl, -⟩ := h.lagging i c a hc ha
    exact ⟨q, hl⟩
  · refine ⟨_, h.settled p fun i c hc hcp => ?_⟩
    cases hpc : c.pc with
    | releaseWrite a => exact (hp ⟨i, c, a, hc, hcp, hpc⟩).elim
    | _ => rfl

theorem linearizes_to_fifo (h : exec (step hash) (init n) acts = some t) (p : UInt16) :
    t.LinearizesToFifo p := by
  obtain ⟨hr, hf⟩ := follows_of_exec h
  obtain ⟨q, hl⟩ := hf.legal p
  refine ⟨_, q, .of_responses (hr.wellFormed p) hl, ?_, ?_⟩
  · rintro i c a hc rfl ha
    exact mem_responses.2 (hr.returned i c a hc ha)
  · intro hquiet
    apply Fifo.pushed_eq_removed_append
    apply hf.settled
    intro i c hc hcp
    obtain ⟨a, ha⟩ := hquiet c (List.mem_of_getElem? hc) hcp
    rw [ha]
    rfl

def overlapRun : List TopicAction :=
  let r := Request.ofByte 98
  [.invoke 0 (.push r (.replicate 5 0)), .invoke 1 (.read 0), .advance 1, .advance 1,
    .advance 1, .advance 0, .advance 0, .advance 0, .advance 0, .advance 0, .advance 0,
    .invoke 1 (.remove r (.replicate 5 0)), .advance 2, .advance 2, .advance 2, .advance 2,
    .advance 2, .advance 2, .advance 2, .advance 2, .advance 2]

theorem linearizes_to_fifo_overlap :
    ∃ t, exec (step fun _ => 0) (init 1) overlapRun = some t ∧ t.LinearizesToFifo 0 := by
  have hs : (exec (step fun _ => 0) (init 1) overlapRun).isSome = true := by decide +kernel
  have ht := (Option.some_get hs).symm
  exact ⟨_, ht, linearizes_to_fifo ht 0⟩

end Topic
end Noctua
