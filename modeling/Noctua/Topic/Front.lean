import Noctua.Topic.Coherent

namespace Noctua
open Transition Wall
set_option autoImplicit true

namespace Topic
variable {t u : Topic} {c d : Call} {hash : Request → Nat}

def FrontsPresent (t : Topic) : Prop := ∀ c ∈ t.calls, ¬ t.DereferencesNull c

instance (t : Topic) : Decidable t.FrontsPresent :=
  inferInstanceAs (Decidable (∀ c ∈ t.calls, _))

def GrantsRemove (t : Topic) (c : Call) : Prop :=
  c.operation.isRemove = true ∧
    (c.pc = .awaitRead ∧ t.Readable c.partition ∨ c.pc = .awaitWrite ∧ t.Writable c.partition)

/-- A lock that the step grants to a `remove` is on a partition that holds a message. -/
def GrantsOnMessages (t : Topic) (a : TopicAction) : Prop :=
  ∀ (i : Nat) (c : Call), a = .advance i → t.calls[i]? = some c → t.GrantsRemove c →
    t.queue c.partition ≠ []

def FrontPresent (q : List Message) (c : Call) : Prop :=
  c.operation.isRemove = true → c.pc = .inspect ∨ c.pc = .recheck → q ≠ []

theorem frontsPresent_iff : t.FrontsPresent ↔ Local FrontPresent t := by
  constructor
  · intro h i c hc hr hpc hq
    exact h c (List.mem_of_getElem? hc) ⟨hr, hpc, hq⟩
  · intro h c hc hn
    obtain ⟨i, hi⟩ := List.getElem?_of_mem hc
    exact h i c hi hn.1 hn.2.1 hn.2.2

theorem Next.frontPresent (hn : Next t i c pc e)
    (hg : t.GrantsRemove c → t.queue c.partition ≠ []) :
    FrontPresent (e.onQueue (t.queue c.partition)) { c with pc := pc } := by
  intro hr hpc
  cases hn with
  | acquireRead hc free => exact hg ⟨hr, .inl ⟨hc, free⟩⟩
  | acquireRemove hc hop free => exact hg ⟨hr, .inr ⟨hc, free⟩⟩
  | _ => rcases hpc with hpc | hpc <;> cases hpc

theorem FrontPresent.unlocked (hw : d.pc.holdsWrite = false) (hr : d.pc.holdsRead = false) :
    FrontPresent q d := by
  intro _ hpc
  rcases hpc with hpc | hpc
  · rw [hpc] at hr
    cases hr
  · rw [hpc] at hw
    cases hw

theorem Local.frontPresent_step (h : Coherent t) (hf : Local FrontPresent t)
    (hg : GrantsOnMessages t a) (hs : t.step hash a = some u) : Local FrontPresent u := by
  obtain ⟨client, op, -, -, -, rfl⟩ | ⟨i, c, pc, e, ha, hc, hn, rfl⟩ := step_cases hs
  · exact hf.invoked (.unlocked op.start_holdsWrite op.start_holdsRead)
  · refine hf.advanced h.locks hc hn (h.inRange i c hc) (fun _ => hn.frontPresent ?_)
      fun _ _ _ hw hr _ => .unlocked hw hr
    intro hgr
    rcases ha with rfl | ⟨kept, rfl⟩
    · exact hg i c rfl hc hgr
    · obtain ⟨-, ⟨hpc, -⟩ | ⟨hpc, -⟩⟩ := hgr
      · exact absurd (hpc.symm.trans (failStore_pc hc hs)) Pc.noConfusion
      · exact absurd (hpc.symm.trans (failStore_pc hc hs)) Pc.noConfusion

theorem GrantsRemove.stands (hg : t.GrantsRemove c) (hq : t.queue c.partition = [])
    (hn : Next t i c pc e) : (t.advanced i c pc e).DereferencesNull { c with pc := pc } := by
  obtain ⟨hop, hl⟩ := hg
  cases hn with
  | acquireRead => exact ⟨hop, .inl rfl, hq⟩
  | acquireRemove => exact ⟨hop, .inr rfl, hq⟩
  | acquirePush _ hpush => rw [hpush] at hop; cases hop
  | readFront hp | rejectFirst hp | passFirst hp | answerRead hp | releaseRead hp
  | rejectSecond hp | passSecond hp | acquireWall hp | store hp | failStore hp | releaseWall hp
  | push hp | pop hp | answerWrite hp =>
    rcases hl with ⟨hpc, -⟩ | ⟨hpc, -⟩ <;> cases hp.symm.trans hpc

/-- A lock granted on an empty partition leads `remove` straight to a null `front()`. -/
theorem not_frontsPresent_of_grant (hg : ¬ GrantsOnMessages t a) :
    ∃ u, t.step hash a = some u ∧ ¬ u.FrontsPresent := by
  simp only [GrantsOnMessages, not_forall, not_not] at hg
  obtain ⟨i, c, rfl, hc, ⟨hr, hl⟩, hq⟩ := hg
  have hstep {pc : Pc} (hn : t.next i c = some (pc, .none)) :
      t.step hash (.advance i) = some (t.advanced i c pc .none) := by
    simp only [step, hc, Option.bind_some, hn, Option.map_some]
  have hnull {pc : Pc} (hpc : pc = .inspect ∨ pc = .recheck) :
      ¬ (t.advanced i c pc .none).FrontsPresent := by
    intro hp
    exact hp _ (List.mem_of_getElem? (calls_advanced_self hc)) ⟨hr, hpc, hq⟩
  cases hop : c.operation with
  | push => rw [hop] at hr; cases hr
  | read => rw [hop] at hr; cases hr
  | remove r padding =>
    rcases hl with ⟨hpc, free⟩ | ⟨hpc, free⟩
    · exact ⟨_, hstep (by simp only [next, hpc, if_pos free]), hnull (.inl rfl)⟩
    · exact ⟨_, hstep (by simp only [next, hpc, hop, if_pos free]), hnull (.inr rfl)⟩

/-- A call that stands before a null `front()` makes no step, and its lock keeps the partition
empty while others do. -/
theorem DereferencesNull.advanced {j : Nat} (h : Coherent t) (hd : t.calls[j]? = some d)
    (hnull : t.DereferencesNull d) (hc : t.calls[i]? = some c) (hn : Next t i c pc e) :
    (t.advanced i c pc e).calls[j]? = some d ∧ (t.advanced i c pc e).DereferencesNull d := by
  obtain ⟨hop, hpc, hq⟩ := hnull
  by_cases hj : j = i
  · subst hj
    obtain rfl := Option.some.inj (hd.symm.trans hc)
    have hhead : (t.queue d.partition).head? = none := hq ▸ rfl
    cases hn with
    | readFront _ hread => rw [hread] at hop; cases hop
    | rejectFirst _ _ hm | passFirst _ _ hm | rejectSecond _ _ hm | passSecond _ _ hm =>
      cases hhead.symm.trans hm
    | acquireRead hp | answerRead hp | releaseRead hp | acquireRemove hp | acquirePush hp
    | acquireWall hp | store hp | failStore hp | releaseWall hp | push hp | pop hp
    | answerWrite hp => rcases hpc with hpc | hpc <;> cases hp.symm.trans hpc
  · have hheld : d.pc.holdsWrite = true ∨ d.pc.holdsRead = true := by
      rcases hpc with hpc | hpc <;> rw [hpc]
      · exact .inr rfl
      · exact .inl rfl
    refine ⟨calls_advanced_ne hc hj hd, hop, hpc, ?_⟩
    rw [queue_stable h.locks hc hn (h.inRange i c hc) hj hd hheld, hq]

/-- `remove` finds a message at every `front()` exactly in the runs where each lock it is
granted is on a partition that holds one. -/
theorem fronts_present_iff (hash : Request → Nat) (n : Nat) (acts : List TopicAction) :
    Throughout (step hash) FrontsPresent (init n) acts ↔
      AllSteps (step hash) GrantsOnMessages (init n) acts := by
  refine throughout_iff_allSteps (I := fun t => Coherent t ∧ Local FrontPresent t) ?_ ?_ ?_ ?_
  · exact fun _ _ _ h hg hs => ⟨h.1.step hs, h.2.frontPresent_step h.1 hg hs⟩
  · exact fun _ h => frontsPresent_iff.2 h.2
  · exact fun _ _ _ hg => not_frontsPresent_of_grant hg
  · exact ⟨coherent_init n, fun i c hc => by cases hc⟩

/-- One `remove` on a topic that has just been constructed. -/
theorem fronts_present_fails :
    ¬ ∀ hash n acts, Throughout (step hash) FrontsPresent (init n) acts := by
  intro h
  exact absurd (h (fun _ => 0) 1
    [.invoke 0 (.remove (.ofByte 98) (.replicate 5 0)), .advance 0]) (by decide)

end Topic
end Noctua
