import Noctua.Topic.Locks

namespace Noctua
open Transition Wall
set_option autoImplicit true

variable {q q' : List Message}

def headText (q : List Message) : Option Text := q.head?.map Message.text

/-- The points that each kind of call passes, with what it knows of its partition there: a
reader its answer, a `remove` past a check what the head compared like. -/
def Call.Sound (q : List Message) (c : Call) : Prop :=
  match c.operation with
  | .push _ _ =>
    match c.pc with
    | .awaitWrite | .awaitWall | .store | .releaseWall | .mutate => True
    | .releaseWrite a | .finished a => a = .pushed
    | _ => False
  | .read _ =>
    match c.pc with
    | .awaitRead | .inspect => True
    | .releaseRead a => a = some (.message q.head?)
    | .finished a => ∃ m, a = .message m
    | _ => False
  | .remove r _ =>
    match c.pc with
    | .awaitRead | .inspect | .releaseRead none | .awaitWrite | .recheck => True
    | .awaitWall | .store | .releaseWall | .mutate => headText q = some r.message.text
    | .releaseRead (some a) => a = .removed false ∧ headText q ≠ some r.message.text
    | .releaseWrite a =>
      a = .removed true ∨ a = .removed false ∧ headText q ≠ some r.message.text
    | .finished a => ∃ b, a = .removed b

theorem headText_of_head {m : Message} (h : q.head? = some m) : headText q = some m.text := by
  rw [headText, h]
  rfl

theorem headText_ne {m : Message} (h : q.head? = some m) (hne : m.text ≠ x) :
    headText q ≠ some x := by
  rw [headText_of_head h]
  exact fun he => hne (Option.some.inj he)

theorem Call.Sound.unlocked {d : Call} (hw : d.pc.holdsWrite = false) (hr : d.pc.holdsRead = false)
    (hs : d.Sound q) : d.Sound q' := by
  obtain ⟨client, op, p, pc⟩ := d
  cases op <;> cases pc <;> first | exact hs | exact Bool.noConfusion hw | exact Bool.noConfusion hr

theorem Operation.start_sound (op : Operation) (q : List Message) :
    Call.Sound q ⟨client, op, p, op.start⟩ := by
  cases op <;> trivial

namespace Topic
variable {t u : Topic} {c d : Call} {p : UInt16} {e : Effect} {hash : Request → Nat}

theorem Next.sound (hn : Next t i c pc e) (hs : c.Sound (t.queue c.partition)) :
    Call.Sound (e.onQueue (t.queue c.partition)) { c with pc := pc } := by
  obtain ⟨client, op, p, pc₀⟩ := c
  cases hn with
  | acquireRead hpc =>
    cases hpc
    cases op with
    | push => exact hs.elim
    | _ => trivial
  | readFront hpc hop => cases hop; rfl
  | rejectFirst hpc hop hq hne => cases hop; exact ⟨rfl, headText_ne hq hne⟩
  | passFirst hpc hop hq he => cases hop; trivial
  | @answerRead a hpc =>
    cases hpc
    cases op with
    | push => exact hs.elim
    | read => exact ⟨_, Option.some.inj hs⟩
    | remove => exact ⟨_, hs.1⟩
  | releaseRead hpc =>
    cases hpc
    cases op with
    | push => exact hs.elim
    | read => cases hs
    | remove => trivial
  | acquireRemove hpc hop => cases hop; trivial
  | acquirePush hpc hop => cases hop; trivial
  | rejectSecond hpc hop hq hne => cases hop; exact .inr ⟨rfl, headText_ne hq hne⟩
  | passSecond hpc hop hq he => cases hop; exact (headText_of_head hq).trans (congrArg some he)
  | acquireWall hpc | store hpc | failStore hpc | releaseWall hpc =>
    cases hpc
    cases op with
    | push => trivial
    | read => exact hs.elim
    | remove => exact hs
  | push hpc hop => cases hop; rfl
  | pop hpc hop => cases hop; exact .inl rfl
  | answerWrite hpc =>
    cases hpc
    cases op with
    | push => exact hs
    | read => exact hs.elim
    | remove =>
      rcases hs with hs | hs
      · exact ⟨_, hs⟩
      · exact ⟨_, hs.1⟩

/-- What holds in every state that a topic can reach. -/
structure Coherent (t : Topic) : Prop where
  locks : LocksExclude t
  inRange : ∀ (i : Nat) (c : Call), t.calls[i]? = some c → c.partition.toNat < t.storage.length
  sound : Local Call.Sound t

theorem coherent_init (n : Nat) : Coherent (init n) where
  locks := by
    intro i j c d _ hc
    cases hc
  inRange := by
    intro i c hc
    cases hc
  sound := by
    intro i c hc
    cases hc

theorem Coherent.invoked (h : Coherent t) (hp : p.toNat < t.storage.length) :
    Coherent (t.invoked client op p) where
  locks := h.locks.invoked
  inRange := by
    intro i c hc
    rcases calls_invoked.1 hc with hc | ⟨rfl, rfl⟩
    · exact h.inRange i c hc
    · exact hp
  sound := h.sound.invoked (op.start_sound _)

theorem Coherent.advanced (h : Coherent t) (hc : t.calls[i]? = some c) (hn : Next t i c pc e) :
    Coherent (t.advanced i c pc e) where
  locks := h.locks.advanced hc hn
  inRange := by
    intro j d hd
    rw [advanced_storage_length]
    rcases (calls_advanced hc).1 hd with ⟨rfl, rfl⟩ | ⟨hj, hd⟩
    · exact h.inRange j c hc
    · exact h.inRange j d hd
  sound := h.sound.advanced h.locks hc hn (h.inRange i c hc) hn.sound
    fun _ _ _ hw hr hs => hs.unlocked hw hr

theorem Coherent.step (h : Coherent t) (hs : t.step hash a = some u) : Coherent u :=
  step_rule (fun _ _ _ _ h hp => h.invoked hp) (fun _ _ _ _ _ h hc hn => h.advanced hc hn)
    t a u h hs

theorem coherent_of_exec (h : exec (step hash) (init n) acts = some t) : Coherent t :=
  exec_invariant (fun _ _ _ h hs => h.step hs) (coherent_init n) h

theorem storage_length_step (h : t.step hash a = some u) :
    u.storage.length = t.storage.length := by
  obtain ⟨client, op, -, -, -, rfl⟩ | ⟨i, c, pc, e, -, -, -, rfl⟩ := step_cases h
  · rfl
  · exact advanced_storage_length t i c pc e

theorem storage_length_of_exec (h : exec (step hash) (init n) acts = some t) :
    t.storage.length = n := by
  apply exec_invariant (I := fun t => t.storage.length = n) _ List.length_replicate h
  intro t a u hn hs
  exact (storage_length_step hs).trans hn

end Topic
end Noctua
