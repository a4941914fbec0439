import Noctua.Topic.Locks

namespace Noctua
open Transition Wall
set_option autoImplicit true

/-- The points that each kind of call passes. -/
def Operation.visits : Operation → Pc → Bool
  | .push _ _, .awaitRead | .push _ _, .inspect | .push _ _, .releaseRead _
  | .push _ _, .recheck => false
  | .read _, .releaseRead none | .read _, .awaitWrite | .read _, .recheck | .read _, .awaitWall
  | .read _, .store | .read _, .releaseWall | .read _, .mutate | .read _, .releaseWrite _ => false
  | _, _ => true

def Pc.awaitsLock : Pc → Bool
  | .awaitRead | .awaitWrite | .awaitWall => true
  | _ => false

/-- A comparison with the head of an empty partition may come out either way. -/
def Pc.checked (passes : Bool) : Pc → Pc
  | .inspect => .releaseRead (if passes then none else some (.removed false))
  | .recheck => if passes then .awaitWall else .releaseWrite (.removed false)
  | pc => pc

inductive Turn where
  | invoke (client : Nat) (op : Operation)
  | advance (i : Nat) (passes : Bool)
  | failStore (i kept : Nat)
  deriving DecidableEq, Repr

namespace Topic
variable {t u : Topic} {c d : Call} {p : UInt16} {e : Effect} {hash : Request → Nat}

/-- New readers queue up behind waiting writers. -/
def ReadAvailable (t : Topic) (p : UInt16) : Prop :=
  ∀ c ∈ t.calls, c.partition = p → c.pc.holdsWrite = false ∧ c.pc ≠ .awaitWrite

instance (t : Topic) (p : UInt16) : Decidable (t.ReadAvailable p) :=
  inferInstanceAs (Decidable (∀ c ∈ t.calls, _))

/-- The next step of a call where waiting writers block new readers and every check goes on. -/
def nextTurn (t : Topic) (i : Nat) (c : Call) (passes : Bool) : Option (Pc × Effect) :=
  if t.DereferencesNull c then some (c.pc.checked passes, .none)
  else if c.pc = .awaitRead ∧ ¬ t.ReadAvailable c.partition then none
  else t.next i c

def turn (hash : Request → Nat) (t : Topic) : Turn → Option Topic
  | .invoke client op => t.step hash (.invoke client op)
  | .advance i passes =>
    t.calls[i]?.bind fun c => (t.nextTurn i c passes).map fun (pc, e) => t.advanced i c pc e
  | .failStore i kept => t.step hash (.failStore i kept)

def CanStep (t : Topic) (c : Call) : Prop :=
  match c.pc with
  | .awaitRead => t.ReadAvailable c.partition
  | .awaitWrite => t.Writable c.partition
  | .awaitWall => t.WallFree
  | .finished _ => False
  | _ => True

theorem ReadAvailable.readable (h : t.ReadAvailable p) : t.Readable p :=
  fun c hc hp => (h c hc hp).1

theorem nextTurn_cases (h : t.nextTurn i c v = some (pc, e)) :
    Next t i c pc e ∧ (c.pc = .awaitRead → t.ReadAvailable c.partition) ∨
      t.DereferencesNull c ∧ pc = c.pc.checked v ∧ e = .none := by
  rw [nextTurn] at h
  split at h
  · rename_i hd
    cases h
    exact .inr ⟨hd, rfl, rfl⟩
  · split at h
    · cases h
    · rename_i ha
      exact .inl ⟨next_cases h, fun hpc => by_contra fun hr => ha ⟨hpc, hr⟩⟩

def Visiting (t : Topic) : Prop := ∀ c ∈ t.calls, c.operation.visits c.pc = true

theorem Next.visits (hn : Next t i c pc e) (hv : c.operation.visits c.pc = true) :
    c.operation.visits pc = true := by
  obtain ⟨client, op, p, pc₀⟩ := c
  cases hn with
  | readFront hpc hop | rejectFirst hpc hop | passFirst hpc hop | acquireRemove hpc hop
  | acquirePush hpc hop | rejectSecond hpc hop | passSecond hpc hop | push hpc hop
  | pop hpc hop => cases hop; rfl
  | acquireRead hpc | answerRead hpc | releaseRead hpc | acquireWall hpc | store hpc
  | failStore hpc | releaseWall hpc | answerWrite hpc =>
    cases hpc
    cases op <;> first | rfl | exact hv

theorem visits_checked (hd : t.DereferencesNull c) :
    c.operation.visits (c.pc.checked v) = true := by
  obtain ⟨hr, hpc, -⟩ := hd
  cases hop : c.operation with
  | remove => cases v <;> rcases hpc with hpc | hpc <;> rw [hpc] <;> rfl
  | _ => rw [hop] at hr; cases hr

theorem Visiting.invoked (h : Visiting t) : Visiting (t.invoked client op p) := by
  intro c hc
  rcases List.mem_append.1 hc with hc | hc
  · exact h c hc
  · rw [List.mem_singleton.1 hc]
    cases op <;> rfl

theorem Visiting.advanced (h : Visiting t) (hv : c.operation.visits pc = true) :
    Visiting (t.advanced i c pc e) := by
  intro d hd
  simp only [Topic.advanced, setPc, perform_calls] at hd
  rcases List.mem_or_eq_of_mem_set hd with hd | rfl
  · exact h d hd
  · exact hv

theorem Visiting.step (h : Visiting t) (hs : t.step hash a = some u) : Visiting u :=
  step_rule (fun _ _ _ _ h _ => h.invoked)
    (fun _ _ _ _ _ h hc hn => h.advanced (hn.visits (h _ (List.mem_of_getElem? hc)))) t a u h hs

theorem Visiting.turn (h : Visiting t) (hs : t.turn hash a = some u) : Visiting u := by
  cases a with
  | invoke client op =>
    have hs' : t.step hash (.invoke client op) = some u := hs
    exact h.step hs'
  | failStore i kept =>
    have hs' : t.step hash (.failStore i kept) = some u := hs
    exact h.step hs'
  | advance i v =>
    obtain ⟨c, hc, hs⟩ := Option.bind_eq_some_iff.1 hs
    obtain ⟨⟨pc, e⟩, hn, rfl⟩ := Option.map_eq_some_iff.1 hs
    apply h.advanced
    rcases nextTurn_cases hn with ⟨hn, -⟩ | ⟨hd, rfl, -⟩
    · exact hn.visits (h c (List.mem_of_getElem? hc))
    · exact visits_checked hd

theorem visiting_init (n : Nat) : Visiting (init n) := by
  intro c hc
  cases hc

theorem CanStep.unfinished (hr : t.CanStep c) : c.pc.isFinished = false := by
  cases h : c.pc with
  | finished =>
    rw [CanStep, h] at hr
    exact hr.elim
  | _ => rfl

theorem CanStep.next (hr : t.CanStep c) (hv : c.operation.visits c.pc = true)
    (hd : ¬ t.DereferencesNull c) : ∃ pc e, t.next i c = some (pc, e) := by
  obtain ⟨client, op, p, pc⟩ := c
  have head (hrem : op.isRemove = true) (hpc : pc = .inspect ∨ pc = .recheck) :
      ∃ m, (t.queue p).head? = some m := by
    cases hq : t.queue p with
    | nil => exact (hd ⟨hrem, hpc, hq⟩).elim
    | cons m ms => exact ⟨m, rfl⟩
  cases pc with
  | awaitRead => exact ⟨_, _, if_pos hr.readable⟩
  | inspect =>
    cases op with
    | push => cases hv
    | read => exact ⟨_, _, rfl⟩
    | remove =>
      obtain ⟨m, hm⟩ := head rfl (.inl rfl)
      exact ⟨_, _, Option.map_eq_some_iff.2 ⟨m, hm, rfl⟩⟩
  | releaseRead a => cases a <;> exact ⟨_, _, rfl⟩
  | awaitWrite =>
    cases op with
    | read => cases hv
    | _ => exact ⟨_, _, if_pos hr⟩
  | recheck =>
    cases op with
    | remove =>
      obtain ⟨m, hm⟩ := head rfl (.inr rfl)
      exact ⟨_, _, Option.map_eq_some_iff.2 ⟨m, hm, rfl⟩⟩
    | _ => cases hv
  | awaitWall => exact ⟨_, _, if_pos hr⟩
  | store | mutate =>
    cases op with
    | read => cases hv
    | _ => exact ⟨_, _, rfl⟩
  | releaseWall | releaseWrite => exact ⟨_, _, rfl⟩
  | finished => exact hr.elim

theorem CanStep.turn (hr : t.CanStep c) (hc : t.calls[i]? = some c)
    (hv : c.operation.visits c.pc = true) (v : Bool) :
    ∃ u, t.turn hash (.advance i v) = some u := by
  have hn : ∃ pc e, t.nextTurn i c v = some (pc, e) := by
    by_cases hd : t.DereferencesNull c
    · exact ⟨_, _, if_pos hd⟩
    · have ha : ¬ (c.pc = .awaitRead ∧ ¬ t.ReadAvailable c.partition) := by
        rintro ⟨hpc, ha⟩
        rw [CanStep, hpc] at hr
        exact ha hr
      rw [nextTurn, if_neg hd, if_neg ha]
      exact hr.next hv hd
  obtain ⟨pc, e, hn⟩ := hn
  refine ⟨t.advanced i c pc e, ?_⟩
  rw [Topic.turn, hc, Option.bind_some, hn, Option.map_some]

theorem pc_of_not_canStep (h : ¬ t.CanStep c) :
    c.pc.awaitsLock = true ∨ c.pc.isFinished = true := by
  rw [CanStep] at h
  split at h
  case h_1 hpc | h_2 hpc | h_3 hpc | h_4 hpc => simp [hpc, Pc.awaitsLock, Pc.isFinished]
  case h_5 => exact (h trivial).elim

section
variable (hn : ∀ c ∈ t.calls, ¬ t.CanStep c)
include hn

theorem wallFree_of_stuck : t.WallFree := by
  intro c hc
  have hpc := pc_of_not_canStep (hn c hc)
  cases h : c.pc with
  | store | releaseWall => simp [h, Pc.awaitsLock, Pc.isFinished] at hpc
  | _ => rfl

theorem writable_of_stuck (p : UInt16) : t.Writable p := by
  intro c hc hp
  have hpc := pc_of_not_canStep (hn c hc)
  have hw := hn c hc
  cases h : c.pc with
  | awaitWall =>
    rw [CanStep, h] at hw
    exact (hw (wallFree_of_stuck hn)).elim
  | awaitRead | awaitWrite | finished => exact ⟨rfl, rfl⟩
  | _ => simp [h, Pc.awaitsLock, Pc.isFinished] at hpc

theorem readAvailable_of_stuck (p : UInt16) : t.ReadAvailable p := by
  intro c hc hp
  refine ⟨(writable_of_stuck hn p c hc hp).1, fun h => ?_⟩
  have hw := hn c hc
  rw [CanStep, h] at hw
  exact hw (writable_of_stuck hn c.partition)

theorem finished_of_stuck (hc : c ∈ t.calls) : c.pc.isFinished = true := by
  have hs := hn c hc
  rw [CanStep] at hs
  split at hs
  case h_1 => exact (hs (readAvailable_of_stuck hn _)).elim
  case h_2 => exact (hs (writable_of_stuck hn _)).elim
  case h_3 => exact (hs (wallFree_of_stuck hn)).elim
  case h_4 hpc => rw [hpc]; rfl
  case h_5 => exact (hs trivial).elim

end

theorem visiting_of_exec (h : exec (turn hash) (init n) acts = some t) : Visiting t :=
  exec_invariant (fun _ _ _ h hs => h.turn hs) (visiting_init n) h

/-- However its calls are interleaved, a topic with an unfinished call has one that can go on. -/
theorem never_deadlocks (h : exec (turn hash) (init n) acts = some t) (hc : c ∈ t.calls)
    (hu : c.pc.isFinished = false) :
    ∃ i d, t.calls[i]? = some d ∧ d.pc.isFinished = false ∧ t.CanStep d ∧
      ∀ v, ∃ u, t.turn hash (.advance i v) = some u := by
  have hex : ∃ d ∈ t.calls, t.CanStep d := by
    by_contra hn
    have hs : ∀ d ∈ t.calls, ¬ t.CanStep d := fun d hd hr => hn ⟨d, hd, hr⟩
    exact Bool.noConfusion (hu.symm.trans (finished_of_stuck hs hc))
  obtain ⟨d, hd, hr⟩ := hex
  obtain ⟨i, hi⟩ := List.mem_iff_getElem?.1 hd
  exact ⟨i, d, hi, hr.unfinished, hr, hr.turn hi (visiting_of_exec h d hd)⟩

/-- A reader waits behind a writer that waits for another reader. -/
theorem never_deadlocks_contended :
    ∃ t, exec (turn fun _ => 0) (init 1)
      [.invoke 0 (.read 0), .advance 0 true, .invoke 1 (.push (.ofByte 98) (.replicate 5 0)),
        .invoke 2 (.read 0)] = some t ∧ t.turn (fun _ => 0) (.advance 1 true) = none ∧
      t.turn (fun _ => 0) (.advance 2 true) = none ∧
      ∃ i d, t.calls[i]? = some d ∧ d.pc.isFinished = false ∧ t.CanStep d ∧
        ∀ v, ∃ u, t.turn (fun _ => 0) (.advance i v) = some u := by
  have hs : (exec (turn fun _ => 0) (init 1)
      [.invoke 0 (.read 0), .advance 0 true, .invoke 1 (.push (.ofByte 98) (.replicate 5 0)),
        .invoke 2 (.read 0)]).isSome = true := by decide
  have ht := (Option.some_get hs).symm
  exact ⟨_, ht, rfl, rfl, never_deadlocks ht (c := ⟨2, .read 0, 0, .awaitRead⟩)
    (List.mem_of_getElem? (i := 2) rfl) rfl⟩

end Topic
end Noctua
