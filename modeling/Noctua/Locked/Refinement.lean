import Noctua.Locked.Attending
import Noctua.MutualExclusion

namespace Noctua
open Transition Attendance
set_option autoImplicit true

namespace LockedTopic
variable {t u : LockedTopic} {c d : Call} {k : Tickets} {p : UInt16} {l : Lock} {i j : Nat}
  {hash : Request → Nat}

/-- The mutexes of the partitions exclude readers and writers. -/
def Excludes (t : LockedTopic) : Prop := ∀ p, LockSystem.Exclusive (t.mutex p)

/-- A turn of a wake-up loop does not find a queued reader while a writer is active. -/
def WakesSafely (t : LockedTopic) : LockedAction → Prop
  | .wake p => LockSystem.WakesNoReaderPastWriter (t.mutex p) .wake
  | _ => True

instance (s : LockSystem) (a : LockAction) : Decidable (LockSystem.WakesNoReaderPastWriter s a) :=
  inferInstanceAs (Decidable (_ → _ → _ → _))

instance (t : LockedTopic) (a : LockedAction) : Decidable (WakesSafely t a) :=
  match a with
  | .wake p => inferInstanceAs (Decidable (LockSystem.WakesNoReaderPastWriter (t.mutex p) .wake))
  | .invoke _ _ | .request _ | .advance _ | .failStore _ _ => isTrue trivial

theorem Excludes.setMutex (h : Excludes t) (hs : (t.mutex p).step a = some s)
    (hw : LockSystem.WakesNoReaderPastWriter (t.mutex p) a) : Excludes (t.setMutex p s) := by
  intro q
  obtain ⟨rfl, he⟩ | he := mutex_setMutex t p q s
  · rw [he]
    exact (h q).step hw hs
  · rw [he]
    exact h q

theorem Excludes.lock (h : Excludes t) (hu : t.lock l = some u) : Excludes u := by
  obtain ⟨p, mode, s, -, hs, rfl⟩ | ⟨s, -, -, rfl⟩ := lock_cases hu
  · apply h.setMutex hs
    cases mode <;> exact fun ha => nomatch ha
  · exact h

theorem Excludes.unlock (h : Excludes t) (hu : t.unlock r l = some u) : Excludes u := by
  obtain ⟨p, mode, s, -, hs, rfl⟩ | ⟨s, -, -, rfl⟩ := unlock_cases hu
  · apply h.setMutex hs
    cases mode <;> exact fun ha => nomatch ha
  · exact h

theorem Excludes.step (h : Excludes t) (hw : WakesSafely t a) (ht : t.step hash a = some u) :
    Excludes u := by
  cases step_locked ht with
  | invoke | enter | work => exact h
  | request _ _ _ _ hu =>
    have hx := h.lock hu
    exact hx
  | leave _ _ _ _ hu =>
    have hx := h.unlock hu
    exact hx
  | wake hm => exact h.setMutex hm hw

theorem Attending.holder (h : Attending t) (hd : t.topic.calls[j]? = some d)
    (hs : d.stage l = some .holds) : ∃ r, t.view l j = some (.holds, r) ∧ r ∈ t.grants l := by
  obtain ⟨k, hk⟩ := h.ticket hd
  obtain ⟨r, hr⟩ := Call.fits_held (h.fits j d k hd hk) hs
  have hv : t.view l j = some (.holds, r) := view_eq_some.2 ⟨d, k, hd, hk, hs, hr⟩
  exact ⟨r, hv, (h.attended l).holding j r hv⟩

theorem Attending.sole (h : Attending t) (hg : (t.grants l).length ≤ 1)
    (hv : t.view l i = some (stage, r)) (hr : r ∈ t.grants l) (hd : t.topic.calls[j]? = some d)
    (hs : d.stage l = some .holds) : i = j := by
  obtain ⟨_, hj, -⟩ := h.holder hd hs
  exact (h.attended l).sole hg hv hr hj

section
variable (h : Attending t) (hx : Excludes t) (hv : Sound t) (hc : t.topic.calls[i]? = some c)
  (hk : t.tickets[i]? = some k) (hl : c.awaits = some l) (hr : k.of l = some r)
  (hg : r ∈ t.grants l)
include h hl hg

include hx in
theorem readable_of_grant (hpc : c.pc = .awaitRead) : t.topic.Readable c.partition := by
  obtain rfl : Lock.partition c.partition .read = l := by
    rw [Call.awaits, hpc] at hl
    exact Option.some.inj hl
  intro d hd hp
  rw [Bool.eq_false_iff]
  intro hw
  obtain ⟨j, hj⟩ := List.mem_iff_getElem?.1 hd
  obtain ⟨x, -, hx'⟩ := h.holder hj (Call.stage_write hw)
  rw [hp] at hx'
  have hread := (hx c.partition).mutualExclusion.2 (List.ne_nil_of_mem hx')
  exact List.ne_nil_of_mem hg hread

include hx hc hk hr in
theorem writable_of_grant (hpc : c.pc = .awaitWrite) : t.topic.Writable c.partition := by
  have hs := Call.awaits_stage hl
  obtain rfl : Lock.partition c.partition .write = l := by
    rw [Call.awaits, hpc] at hl
    exact Option.some.inj hl
  have hm := (hx c.partition).mutualExclusion
  intro d hd hp
  obtain ⟨j, hj⟩ := List.mem_iff_getElem?.1 hd
  constructor
  · rw [Bool.eq_false_iff]
    intro hw
    have hsd := Call.stage_write hw
    rw [hp] at hsd
    have hview := view_eq_some.2 ⟨c, k, hc, hk, hs, hr⟩
    obtain rfl := h.sole (l := .partition c.partition .write) hm.1 hview hg hj hsd
    cases hc.symm.trans hj
    rw [hpc] at hw
    cases hw
  · rw [Bool.eq_false_iff]
    intro hread
    obtain ⟨x, -, hx'⟩ := h.holder hj (Call.stage_read hread)
    rw [hp] at hx'
    exact List.ne_nil_of_mem hx' (hm.2 (List.ne_nil_of_mem hg))

include hv hc hk hr in
theorem wallFree_of_grant (hpc : c.pc = .awaitWall) : t.topic.WallFree := by
  have hs := Call.awaits_stage hl
  obtain rfl : Lock.wall = l := by
    rw [Call.awaits, hpc] at hl
    exact Option.some.inj hl
  intro d hd
  rw [Bool.eq_false_iff]
  intro hw
  obtain ⟨j, hj⟩ := List.mem_iff_getElem?.1 hd
  obtain rfl := h.sole (l := .wall) hv.ordered.fifoLock.exclusive
    (view_eq_some.2 ⟨c, k, hc, hk, hs, hr⟩) hg hj (Call.stage_wall hw)
  cases hc.symm.trans hj
  rw [hpc] at hw
  cases hw

include hx hv hc hk hr in
/-- A call that has been granted its lock finds it free of everyone else. -/
theorem next_of_grant (he : c.entered = some pc) : t.topic.next i c = some (pc, .none) := by
  rw [Call.entered] at he
  split at he
  case h_1 hpc =>
    cases he
    simp only [Topic.next, hpc, if_pos (readable_of_grant h hx hl hg hpc)]
  case h_2 hpc hop =>
    cases he
    simp only [Topic.next, hpc, hop, if_pos (writable_of_grant h hx hc hk hl hr hg hpc)]
  case h_3 hpc hop =>
    cases he
    simp only [Topic.next, hpc, hop, if_pos (writable_of_grant h hx hc hk hl hr hg hpc)]
  case h_4 hpc =>
    cases he
    simp only [Topic.next, hpc, if_pos (wallFree_of_grant h hv hc hk hl hr hg hpc)]
  case h_5 => cases he

end

/-- A step that concerns the calls is a step of the topic with perfect locks. -/
theorem step_topic (h : Attending t) (hx : Excludes t) (hv : Sound t)
    (ht : t.step hash a = some u) (ha : a.onTopic = some b) :
    t.topic.step hash b = some u.topic := by
  cases step_locked ht with
  | invoke hs =>
    cases ha
    exact hs
  | request | wake => cases ha
  | enter hc hk hl hr hg he =>
    cases ha
    rw [Topic.step, hc, Option.bind_some, next_of_grant h hx hv hc hk hl hr hg he, Option.map_some]
  | leave hc hk hl hr hu hn =>
    cases ha
    rw [Topic.step, hc, Option.bind_some, hn, Option.map_some]
  | work _ hs =>
    obtain ⟨b', hb, hs⟩ := hs
    cases ha.symm.trans hb
    exact hs

theorem step_quiet (ht : t.step hash a = some u) (ha : a.onTopic = none) :
    u.topic = t.topic := by
  cases step_locked ht with
  | invoke | enter | leave => cases ha
  | request _ _ _ _ hu => exact (frame_lock hu).1
  | work hw =>
    obtain rfl | ⟨kept, rfl⟩ := hw <;> cases ha
  | wake => rfl

structure Orderly (t : LockedTopic) : Prop where
  attending : Attending t
  sound : Sound t
  excludes : Excludes t

theorem Orderly.step (h : Orderly t) (hw : WakesSafely t a) (ht : t.step hash a = some u) :
    Orderly u where
  attending := h.attending.step h.sound ht
  sound := h.sound.step ht
  excludes := h.excludes.step hw ht

theorem orderly_init (n : Nat) : Orderly (init n) where
  attending := attending_init n
  sound := sound_init n
  excludes p := by
    rw [init_mutex]
    exact LockSystem.exclusive_init

/-- The calls of a topic that take turns by the program's mutexes run as they would with perfect
locks, as long as no turn of a wake-up loop lets a reader in beside a writer. -/
theorem refines (h : exec (step hash) (init n) acts = some t)
    (hw : AllSteps (step hash) WakesSafely (init n) acts) :
    exec (Topic.step hash) (Topic.init n) (acts.filterMap LockedAction.onTopic) =
      some t.topic := by
  have keep (s a u) (hi : Orderly s) (hw : WakesSafely s a) (hs : step hash s a = some u) :
      Orderly u := hi.step hw hs
  have quiet (s a u) (_ : Orderly s) (_ : WakesSafely s a) (hs : step hash s a = some u)
      (ha : a.onTopic = none) : u.topic = s.topic := step_quiet hs ha
  have move (s a u b) (hi : Orderly s) (_ : WakesSafely s a) (hs : step hash s a = some u)
      (ha : a.onTopic = some b) : s.topic.step hash b = some u.topic :=
    step_topic hi.attending hi.excludes hi.sound hs ha
  exact exec_project keep quiet move (orderly_init n) hw h

theorem refines_contended :
    (exec (step fun _ => 0) (init 1) contended).map topic =
      exec (Topic.step fun _ => 0) (Topic.init 1) (contended.filterMap LockedAction.onTopic) := by
  obtain ⟨t, ht⟩ := Option.isSome_iff_exists.1
    (by decide +kernel : (exec (step fun _ => 0) (init 1) contended).isSome = true)
  rw [refines ht (by decide +kernel), ht, Option.map_some]

end LockedTopic
end Noctua
