import Noctua.Topic.Step

namespace Noctua
open Transition Wall
set_option autoImplicit true

namespace Topic
variable {t u : Topic} {c : Call} {p q : UInt16} {hash : Request → Nat}

/-- Everything that the next step of a call can be. -/
inductive Next (t : Topic) (i : Nat) (c : Call) : Pc → Effect → Prop where
  | acquireRead (hpc : c.pc = .awaitRead) (free : t.Readable c.partition) :
      Next t i c .inspect .none
  | readFront (hpc : c.pc = .inspect) (hop : c.operation = .read pid) :
      Next t i c (.releaseRead (some (.message (t.queue c.partition).head?))) .none
  | rejectFirst (hpc : c.pc = .inspect) (hop : c.operation = .remove r padding)
      (hq : (t.queue c.partition).head? = some m) (hne : m.text ≠ r.message.text) :
      Next t i c (.releaseRead (some (.removed false))) .none
  | passFirst (hpc : c.pc = .inspect) (hop : c.operation = .remove r padding)
      (hq : (t.queue c.partition).head? = some m) (he : m.text = r.message.text) :
      Next t i c (.releaseRead none) .none
  | answerRead (hpc : c.pc = .releaseRead (some a)) : Next t i c (.finished a) (.respond a)
  | releaseRead (hpc : c.pc = .releaseRead none) : Next t i c .awaitWrite .none
  | acquireRemove (hpc : c.pc = .awaitWrite) (hop : c.operation = .remove r padding)
      (free : t.Writable c.partition) : Next t i c .recheck .none
  | acquirePush (hpc : c.pc = .awaitWrite) (hop : c.operation = .push r padding)
      (free : t.Writable c.partition) : Next t i c .awaitWall .none
  | rejectSecond (hpc : c.pc = .recheck) (hop : c.operation = .remove r padding)
      (hq : (t.queue c.partition).head? = some m) (hne : m.text ≠ r.message.text) :
      Next t i c (.releaseWrite (.removed false)) .none
  | passSecond (hpc : c.pc = .recheck) (hop : c.operation = .remove r padding)
      (hq : (t.queue c.partition).head? = some m) (he : m.text = r.message.text) :
      Next t i c .awaitWall .none
  | acquireWall (hpc : c.pc = .awaitWall) (free : t.WallFree) : Next t i c .store .none
  | store (hpc : c.pc = .store) (hd : c.wallData = some d) : Next t i c .releaseWall (.store d)
  | failStore (hpc : c.pc = .store) (hd : c.wallData = some d) (kept : Nat) :
      Next t i c .releaseWall (.failStore d kept)
  | releaseWall (hpc : c.pc = .releaseWall) : Next t i c .mutate .none
  | push (hpc : c.pc = .mutate) (hop : c.operation = .push r padding) :
      Next t i c (.releaseWrite .pushed) (.push ⟨i, r.message.text⟩)
  | pop (hpc : c.pc = .mutate) (hop : c.operation = .remove r padding) :
      Next t i c (.releaseWrite (.removed true)) .pop
  | answerWrite (hpc : c.pc = .releaseWrite a) : Next t i c (.finished a) (.respond a)

theorem Next.unfinished (hn : Next t i c pc e) : c.pc ≠ .finished a := by
  intro ha
  cases hn with
  | acquireRead hpc | readFront hpc | rejectFirst hpc | passFirst hpc | answerRead hpc
  | releaseRead hpc | acquireRemove hpc | acquirePush hpc | rejectSecond hpc | passSecond hpc
  | acquireWall hpc | store hpc | failStore hpc | releaseWall hpc | push hpc | pop hpc
  | answerWrite hpc =>
    rw [ha] at hpc
    cases hpc

theorem Next.not_finished (hn : Next t i c pc e) : c.pc.isFinished = false := by
  cases hpc : c.pc with
  | finished a => exact (hn.unfinished hpc).elim
  | _ => rfl

theorem next_cases (h : t.next i c = some (pc, e)) : Next t i c pc e := by
  rw [next] at h
  split at h
  case h_1 hpc =>
    obtain ⟨free, rfl, rfl⟩ : t.Readable c.partition ∧ Pc.inspect = pc ∧ Effect.none = e := by
      simpa only [Option.ite_none_right_eq_some, Option.some.injEq, Prod.mk.injEq] using h
    exact .acquireRead hpc free
  case h_2 hpc hop =>
    cases h
    exact .readFront hpc hop
  case h_3 r padding hpc hop =>
    obtain ⟨m, hq, hm⟩ := Option.map_eq_some_iff.1 h
    cases hm
    split
    · exact .rejectFirst hpc hop hq ‹_›
    · exact .passFirst hpc hop hq (not_not.1 ‹_›)
  case h_4 => cases h
  case h_5 a hpc =>
    cases h
    exact .answerRead hpc
  case h_6 hpc =>
    cases h
    exact .releaseRead hpc
  case h_7 hpc hop =>
    obtain ⟨free, rfl, rfl⟩ : t.Writable c.partition ∧ Pc.recheck = pc ∧ Effect.none = e := by
      simpa only [Option.ite_none_right_eq_some, Option.some.injEq, Prod.mk.injEq] using h
    exact .acquireRemove hpc hop free
  case h_8 hpc hop =>
    obtain ⟨free, rfl, rfl⟩ : t.Writable c.partition ∧ Pc.awaitWall = pc ∧ Effect.none = e := by
      simpa only [Option.ite_none_right_eq_some, Option.some.injEq, Prod.mk.injEq] using h
    exact .acquirePush hpc hop free
  case h_9 => cases h
  case h_10 r padding hpc hop =>
    obtain ⟨m, hq, hm⟩ := Option.map_eq_some_iff.1 h
    cases hm
    split
    · exact .rejectSecond hpc hop hq ‹_›
    · exact .passSecond hpc hop hq (not_not.1 ‹_›)
  case h_11 => cases h
  case h_12 hpc =>
    obtain ⟨free, rfl, rfl⟩ : t.WallFree ∧ Pc.store = pc ∧ Effect.none = e := by
      simpa only [Option.ite_none_right_eq_some, Option.some.injEq, Prod.mk.injEq] using h
    exact .acquireWall hpc free
  case h_13 hpc =>
    obtain ⟨d, hd, hm⟩ := Option.map_eq_some_iff.1 h
    cases hm
    exact .store hpc hd
  case h_14 hpc =>
    cases h
    exact .releaseWall hpc
  case h_15 hpc hop =>
    cases h
    exact .push hpc hop
  case h_16 hpc hop =>
    cases h
    exact .pop hpc hop
  case h_17 => cases h
  case h_18 hpc =>
    cases h
    exact .answerWrite hpc
  case h_19 => cases h

theorem step_cases (h : t.step hash a = some u) :
    (∃ client op, a = .invoke client op ∧ op.asserts = true ∧
      (op.partitionIdx hash t.storage.length).toNat < t.storage.length ∧
      u = t.invoked client op (op.partitionIdx hash t.storage.length)) ∨
    ∃ i c pc e, (a = .advance i ∨ ∃ kept, a = .failStore i kept) ∧ t.calls[i]? = some c ∧
      Next t i c pc e ∧ u = t.advanced i c pc e := by
  cases a with
  | invoke client op =>
    simp only [step, Option.ite_none_right_eq_some, Option.some.injEq] at h
    exact .inl ⟨client, op, rfl, h.1.1, h.1.2, h.2.symm⟩
  | advance i =>
    obtain ⟨c, hc, h⟩ := Option.bind_eq_some_iff.1 h
    obtain ⟨⟨pc, e⟩, hn, rfl⟩ := Option.map_eq_some_iff.1 h
    exact .inr ⟨i, c, pc, e, .inl rfl, hc, next_cases hn, rfl⟩
  | failStore i kept =>
    obtain ⟨c, hc, h⟩ := Option.bind_eq_some_iff.1 h
    obtain ⟨⟨pc, e⟩, hn, h⟩ := Option.bind_eq_some_iff.1 h
    cases e with
    | store d =>
      cases h
      cases next_cases hn with
      | store hpc hd => exact .inr ⟨i, c, _, _, .inr ⟨kept, rfl⟩, hc, .failStore hpc hd kept, rfl⟩
    | _ => cases h

theorem invoke_cases (h : t.step hash (.invoke client op) = some u) :
    (op.partitionIdx hash t.storage.length).toNat < t.storage.length ∧
      u = t.invoked client op (op.partitionIdx hash t.storage.length) := by
  obtain ⟨_, _, ha, -, hp, rfl⟩ | ⟨i, c, pc, e, ha | ⟨kept, ha⟩, -⟩ := step_cases h <;> cases ha
  exact ⟨hp, rfl⟩

theorem advance_cases (h : t.step hash (.advance i) = some u) :
    ∃ c pc e, t.calls[i]? = some c ∧ Next t i c pc e ∧ u = t.advanced i c pc e := by
  obtain ⟨_, _, ha, -⟩ | ⟨j, c, pc, e, ha | ⟨kept, ha⟩, hc, hn, hu⟩ := step_cases h <;> cases ha
  exact ⟨c, pc, e, hc, hn, hu⟩

theorem failStore_pc (hc : t.calls[i]? = some c) (hs : t.step hash (.failStore i kept) = some u) :
    c.pc = .store := by
  obtain ⟨d, hd, hs⟩ := Option.bind_eq_some_iff.1 hs
  obtain rfl := Option.some.inj (hc.symm.trans hd)
  obtain ⟨⟨pc, e⟩, hn, hs⟩ := Option.bind_eq_some_iff.1 hs
  cases e with
  | store d => cases next_cases hn with | store hpc => exact hpc
  | _ => cases hs

theorem failStore_cases (h : t.step hash (.failStore i kept) = some u) :
    ∃ c pc e, t.calls[i]? = some c ∧ c.pc = .store ∧ Next t i c pc e ∧
      u = t.advanced i c pc e := by
  obtain ⟨_, _, ha, -⟩ | ⟨j, c, pc, e, ha | ⟨kept, ha⟩, hc, hn, hu⟩ := step_cases h <;> cases ha
  exact ⟨c, pc, e, hc, failStore_pc hc h, hn, hu⟩

/-- The step rule: a property is kept by every step when a new call and every step of a call
keep it. -/
theorem step_rule {I : Topic → Prop}
    (invoke : ∀ t client op p, I t → p.toNat < t.storage.length → I (t.invoked client op p))
    (advance : ∀ t i c pc e, I t → t.calls[i]? = some c → Next t i c pc e →
      I (t.advanced i c pc e)) (t : Topic) (a : TopicAction) (u : Topic) (hi : I t)
    (h : t.step hash a = some u) : I u := by
  obtain ⟨client, op, -, -, hp, rfl⟩ | ⟨i, c, pc, e, -, hc, hn, rfl⟩ := step_cases h
  · exact invoke t client op _ hi hp
  · exact advance t i c pc e hi hc hn

end Topic
end Noctua
