import Noctua.Locked.Inversion

namespace Noctua
open Transition Attendance
set_option autoImplicit true

namespace Pc

/-- Whether a call at this point waits for or holds the `mutex_` of its partition. -/
def stage (pc : Pc) : LockMode → Option Stage
  | .read => match pc with
    | .awaitRead => some .waits
    | .inspect | .releaseRead _ => some .holds
    | _ => none
  | .write => match pc with
    | .awaitWrite => some .waits
    | .recheck | .awaitWall | .store | .releaseWall | .mutate | .releaseWrite _ => some .holds
    | _ => none

def wallStage : Pc → Option Stage
  | .awaitWall => some .waits
  | .store | .releaseWall => some .holds
  | _ => none

/-- The tickets that a call has at each point. -/
def Fits (k : Tickets) : Pc → Prop
  | .awaitRead | .awaitWrite => k.wall = none
  | .awaitWall => k.partition.isSome
  | .inspect | .releaseRead _ | .recheck | .mutate | .releaseWrite _ =>
    k.partition.isSome ∧ k.wall = none
  | .store | .releaseWall => k.partition.isSome ∧ k.wall.isSome
  | .finished _ => k.partition = none ∧ k.wall = none

end Pc

namespace Call
variable {c d : Call} {k : Tickets} {l m : Lock} {t : Topic}

def stage (c : Call) : Lock → Option Stage
  | .partition p mode => if c.partition = p then c.pc.stage mode else none
  | .wall => c.pc.wallStage

/-- What the queue of a lock knows of a call. -/
def entry (c : Call) (k : Tickets) (l : Lock) : Option (Stage × Nat) :=
  (c.stage l).bind fun stage => (k.of l).map (stage, ·)

theorem entry_eq_some : c.entry k l = some (s, r) ↔ c.stage l = some s ∧ k.of l = some r := by
  simp only [entry, Option.bind_eq_some_iff, Option.map_eq_some_iff, Prod.mk.injEq]
  constructor
  · rintro ⟨_, hs, _, hr, rfl, rfl⟩
    exact ⟨hs, hr⟩
  · rintro ⟨hs, hr⟩
    exact ⟨s, hs, r, hr, rfl, rfl⟩

theorem awaits_stage (h : c.awaits = some l) : c.stage l = some .waits := by
  rw [awaits] at h
  split at h <;> cases h <;> simp [stage, Pc.stage, Pc.wallStage, *]

theorem leaves_stage (h : c.leaves = some l) : c.stage l = some .holds := by
  rw [leaves] at h
  split at h <;> cases h <;> simp [stage, Pc.stage, Pc.wallStage, *]

theorem entered_stage (h : c.awaits = some l) (he : c.entered = some pc') :
    { c with pc := pc' }.stage l = some .holds := by
  rw [awaits] at h
  rw [entered] at he
  split at h <;> cases h <;> split at he <;> cases he <;> simp_all [stage, Pc.stage, Pc.wallStage]

theorem stage_sole (h : c.stage (.partition p mode) = some s)
    (hm : Lock.partition q other ≠ .partition p mode) : c.stage (.partition q other) = none := by
  obtain ⟨rfl, h⟩ := Option.ite_none_right_eq_some.1 h
  rw [stage]
  split
  · subst q
    cases hpc : c.pc <;> cases mode <;> cases other <;> simp_all [Pc.stage]
  · rfl

theorem entry_of_ticket (h : k.of l = none) : c.entry k l = none := by
  cases hs : c.stage l <;> simp [entry, hs, h]

theorem entry_of_stage (h : c.stage l = none) : c.entry k l = none := by
  rw [entry, h, Option.bind_none]

theorem entry_congr (hs : d.stage l = c.stage l) : d.entry k l = c.entry k l := by
  rw [entry, hs, entry]

theorem entry_set (h : c.stage l = some s) (hm : m ≠ l) (r : Option Nat) :
    c.entry (k.set l r) m = c.entry k m := by
  cases l with
  | wall =>
    cases m with
    | wall => exact (hm rfl).elim
    | partition => rfl
  | partition p mode =>
    cases m with
    | wall => rfl
    | partition q other => rw [entry_of_stage (stage_sole h hm), entry_of_stage (stage_sole h hm)]

theorem entry_enter (hf : c.pc.Fits k) (h : c.awaits = some l) (he : c.entered = some pc')
    (hm : m ≠ l) : { c with pc := pc' }.entry k m = c.entry k m := by
  have hs := awaits_stage h
  have hs' := entered_stage h he
  cases m with
  | wall =>
    have hw : k.of .wall = none := by
      rw [awaits] at h
      split at h <;> cases h <;> simp_all [Pc.Fits, Tickets.of]
    rw [entry_of_ticket hw, entry_of_ticket hw]
  | partition q other =>
    cases l with
    | partition p mode =>
      rw [entry_of_stage (stage_sole hs hm), entry_of_stage (stage_sole hs' hm)]
    | wall =>
      apply entry_congr
      rw [awaits] at h
      rw [entered] at he
      split at h <;> cases h
      split at he <;> cases he <;> simp_all [stage, Pc.stage]

theorem entry_leave (h : c.leaves = some l) (hn : t.next i c = some (pc', e)) (m : Lock) :
    { c with pc := pc' }.entry (k.set l none) m = if m = l then none else c.entry k m := by
  have hs := leaves_stage h
  split
  · subst m
    apply entry_of_ticket
    cases l <;> rfl
  · rename_i hm
    cases l with
    | wall =>
      cases m with
      | wall => exact (hm rfl).elim
      | partition q other =>
        apply entry_congr
        rw [leaves] at h
        split at h <;> cases h
        cases Topic.next_cases hn <;> simp_all [stage, Pc.stage]
    | partition p mode =>
      cases m with
      | wall =>
        apply entry_congr
        rw [leaves] at h
        split at h <;> cases h <;> cases Topic.next_cases hn <;> simp_all [stage, Pc.wallStage]
      | partition q other =>
        rw [entry_of_stage (stage_sole hs hm)]
        exact entry_of_ticket rfl

theorem entry_work (hf : c.pc.Fits k) (ha : c.awaits = none) (hl : c.leaves = none)
    (hn : t.Next i c pc' e) (m : Lock) : { c with pc := pc' }.entry k m = c.entry k m := by
  cases hn with
  | acquireRead hpc | acquireRemove hpc | acquirePush hpc | acquireWall hpc =>
    rw [awaits, hpc] at ha
    cases ha
  | answerRead hpc | releaseRead hpc | releaseWall hpc | answerWrite hpc =>
    rw [leaves, hpc] at hl
    cases hl
  | readFront hpc | rejectFirst hpc | passFirst hpc | rejectSecond hpc | store hpc
  | failStore hpc | push hpc | pop hpc =>
    apply entry_congr
    cases m with
    | wall =>
      rw [stage, stage, hpc]
      rfl
    | partition q other =>
      rw [stage, stage, hpc]
      rfl
  | passSecond hpc =>
    cases m with
    | wall =>
      rw [hpc] at hf
      rw [entry_of_ticket (l := .wall) hf.2, entry_of_ticket (l := .wall) hf.2]
    | partition q other =>
      apply entry_congr
      rw [stage, stage, hpc]
      rfl

theorem fits_request (hf : c.pc.Fits k) (h : c.awaits = some l) (r : Nat) :
    c.pc.Fits (k.set l (some r)) := by
  rw [awaits] at h
  split at h <;> cases h <;> simp_all [Pc.Fits, Tickets.set]

theorem fits_enter (hf : c.pc.Fits k) (h : c.awaits = some l) (hr : k.of l = some r)
    (he : c.entered = some pc') : pc'.Fits k := by
  rw [awaits] at h
  rw [entered] at he
  split at h <;> cases h <;> split at he <;> cases he <;> simp_all [Pc.Fits, Tickets.of]

theorem fits_leave (hf : c.pc.Fits k) (h : c.leaves = some l)
    (hn : t.next i c = some (pc', e)) : pc'.Fits (k.set l none) := by
  rw [leaves] at h
  split at h <;> cases h <;> cases Topic.next_cases hn <;> simp_all [Pc.Fits, Tickets.set]

theorem fits_work (hf : c.pc.Fits k) (ha : c.awaits = none) (hl : c.leaves = none)
    (hn : t.Next i c pc' e) : pc'.Fits k := by
  cases hn with
  | acquireRead hpc | acquireRemove hpc | acquirePush hpc | acquireWall hpc =>
    rw [awaits, hpc] at ha
    cases ha
  | answerRead hpc | releaseRead hpc | releaseWall hpc | answerWrite hpc =>
    rw [leaves, hpc] at hl
    cases hl
  | readFront hpc | rejectFirst hpc | passFirst hpc | rejectSecond hpc | store hpc
  | failStore hpc | push hpc | pop hpc =>
    rw [hpc] at hf
    exact hf
  | passSecond hpc =>
    rw [hpc] at hf
    exact hf.1

theorem fits_held (hf : c.pc.Fits k) (hs : c.stage l = some .holds) :
    ∃ r, k.of l = some r := by
  apply Option.isSome_iff_exists.1
  cases l with
  | wall =>
    rw [stage] at hs
    cases hpc : c.pc <;> rw [hpc] at hs hf <;> cases hs
    · exact hf.2
    · exact hf.2
  | partition p mode =>
    obtain ⟨-, hs⟩ := Option.ite_none_right_eq_some.1 hs
    cases hpc : c.pc <;> cases mode <;> rw [hpc] at hs hf <;> cases hs
    all_goals first | exact hf | exact hf.1

theorem stage_read (h : c.pc.holdsRead = true) :
    c.stage (.partition c.partition .read) = some .holds := by
  rw [stage, if_pos rfl]
  cases hpc : c.pc <;> rw [hpc] at h <;> first | rfl | cases h

theorem stage_write (h : c.pc.holdsWrite = true) :
    c.stage (.partition c.partition .write) = some .holds := by
  rw [stage, if_pos rfl]
  cases hpc : c.pc <;> rw [hpc] at h <;> first | rfl | cases h

theorem stage_wall (h : c.pc.holdsWall = true) :
    c.stage .wall = some .holds := by
  rw [stage]
  cases hpc : c.pc <;> rw [hpc] at h <;> first | rfl | cases h

end Call
end Noctua
