import Noctua.Locked.Attending
import Noctua.Topic.Progress
import Noctua.Library.Potential

namespace Noctua
open Transition Attendance Potential
set_option autoImplicit true

def LockedAction.isInvoke : LockedAction → Bool
  | .invoke _ _ => true
  | _ => false

/-- How many steps a call has still to make at most; a read request may cost a turn of a wake-up
loop as well. -/
def Pc.stepsLeft (k : Tickets) : Pc → Nat
  | .awaitRead => if k.partition = none then 14 else 12
  | .inspect => 11
  | .releaseRead _ => 10
  | .awaitWrite => if k.partition = none then 9 else 8
  | .recheck => 7
  | .awaitWall => if k.wall = none then 6 else 5
  | .store => 4
  | .releaseWall => 3
  | .mutate => 2
  | .releaseWrite _ => 1
  | .finished _ => 0

/-- The turn of a wake-up loop that a request may cost. -/
def Lock.turns : Lock → Nat
  | .partition _ .read => 1
  | _ => 0

namespace LockSystem
variable {s t : LockSystem} {mode : LockMode}

def turns (s : LockSystem) : Nat := s.mutex.sharedWaiters.length + s.waking

theorem turns_read (hs : s.step LockMode.read.request = some t) : t.turns ≤ s.turns + 1 := by
  cases step_section hs with
  | sharedFree => exact Nat.le_succ _
  | sharedQueued =>
    simp only [turns, requested, record, List.length_append, List.length_singleton]
    omega

theorem turns_write (hs : s.step LockMode.write.request = some t) : t.turns = s.turns := by
  cases step_section hs <;> rfl

theorem turns_release (hs : s.step (mode.release r) = some t) : t.turns = s.turns := by
  cases mode with
  | read => cases step_section hs <;> rfl
  | write =>
    cases step_section hs with
    | unlockToReader _ _ hq =>
      rw [turns, turns, hq, List.length_cons, Nat.add_right_comm]
      rfl
    | unlockToWriter | unlockFree => rfl

theorem turns_wake (hs : s.step .wake = some t) : t.turns + 1 = s.turns := by
  cases step_section hs with
  | wakeReader _ hq =>
    simp only [turns, grant_mutex, hq, List.length_cons]
    exact Nat.add_right_comm _ _ _
  | wakeDone hw hq =>
    simp only [turns, hq, List.length_nil]
    omega

theorem Queued.free (h : Queued s) (hg : ∀ mode, s.grants mode = [])
    (hw : ∀ mode, s.waiters mode = []) : s.mutex = {} := by
  have hactive : s.mutex.writerActive = false := by
    rw [← Bool.not_eq_true]
    exact fun ha => h.active ha (hg .write)
  have hreaders : s.mutex.readerCount = 0 := h.readers.trans (congrArg List.length (hg .read))
  have hwriters : s.mutex.writersWaiting = 0 := h.writers.trans (congrArg List.length (hw .write))
  have hshared : s.mutex.sharedWaiters = [] := hw .read
  have hunique : s.mutex.uniqueWaiters = [] := hw .write
  generalize s.mutex = m at hactive hreaders hwriters hshared hunique
  cases m
  cases hactive
  cases hreaders
  cases hwriters
  cases hshared
  cases hunique
  rfl

end LockSystem

namespace LockedTopic
variable {t u : LockedTopic} {c d : Call} {j k : Tickets} {p : UInt16} {l : Lock} {i : Nat}
  {hash : Request → Nat}

def callsLeft (t : LockedTopic) : Nat :=
  ((t.topic.calls.zip t.tickets).map fun x => x.1.pc.stepsLeft x.2).sum

def turnsLeft (t : LockedTopic) : Nat := (t.mutexes.map LockSystem.turns).sum

theorem Moved.callsLeft (h : Moved t u i d j) (hc : t.topic.calls[i]? = some c)
    (hk : t.tickets[i]? = some k) :
    u.callsLeft + c.pc.stepsLeft k = t.callsLeft + d.pc.stepsLeft j := by
  have hz : (t.topic.calls.zip t.tickets)[i]? = some (c, k) :=
    List.getElem?_zip_eq_some.2 ⟨hc, hk⟩
  rw [LockedTopic.callsLeft, h.calls, h.tickets, zip_set]
  exact sum_map_set _ hz

theorem Moved.callsLeft_pc (h : Moved t u i { c with pc := pc } j)
    (hc : t.topic.calls[i]? = some c) (hk : t.tickets[i]? = some k) :
    u.callsLeft + c.pc.stepsLeft k = t.callsLeft + pc.stepsLeft j := h.callsLeft hc hk

theorem turnsLeft_setMutex (hp : p.toNat < t.mutexes.length) (s : LockSystem) :
    (t.setMutex p s).turnsLeft + (t.mutex p).turns = t.turnsLeft + s.turns := by
  apply sum_map_set
  rw [mutex, List.getD_eq_getElem?_getD, List.getElem?_eq_getElem hp, Option.getD_some]

theorem turnsLeft_lock (hr : t.InRange l) (hu : t.lock l = some u) :
    u.turnsLeft ≤ t.turnsLeft + l.turns := by
  obtain ⟨p, mode, s, rfl, hs, rfl⟩ | ⟨s, rfl, -, rfl⟩ := lock_cases hu
  · have hset := turnsLeft_setMutex hr s
    cases mode with
    | read =>
      have hone := LockSystem.turns_read hs
      rw [Lock.turns]
      omega
    | write =>
      have hsame := LockSystem.turns_write hs
      omega
  · exact Nat.le_refl _

theorem turnsLeft_unlock (hr : t.InRange l) (hu : t.unlock r l = some u) :
    u.turnsLeft = t.turnsLeft := by
  obtain ⟨p, mode, s, rfl, hs, rfl⟩ | ⟨s, rfl, -, rfl⟩ := unlock_cases hu
  · have hset := turnsLeft_setMutex hr s
    have hsame := LockSystem.turns_release hs
    omega
  · rfl

theorem turnsLeft_wake (hs : (t.mutex p).step .wake = some s) :
    (t.setMutex p s).turnsLeft + 1 = t.turnsLeft := by
  have hp : p.toNat < t.mutexes.length := by
    by_contra hn
    rw [mutex, List.getD_eq_getElem?_getD, List.getElem?_eq_none (Nat.le_of_not_lt hn)] at hs
    cases hs
  have hset := turnsLeft_setMutex hp s
  have hone := LockSystem.turns_wake hs
  omega

theorem stepsLeft_request (hl : c.awaits = some l) (hn : k.of l = none) (r : Nat) :
    c.pc.stepsLeft (k.set l (some r)) + 1 + l.turns = c.pc.stepsLeft k := by
  rw [Call.awaits] at hl
  split at hl <;> cases hl <;> simp_all [Pc.stepsLeft, Tickets.of, Tickets.set, Lock.turns]

theorem stepsLeft_enter (hf : c.pc.Fits k) (hl : c.awaits = some l) (hr : k.of l = some r)
    (he : c.entered = some pc) : pc.stepsLeft k + 1 ≤ c.pc.stepsLeft k := by
  rw [Call.awaits] at hl
  rw [Call.entered] at he
  split at hl <;> cases hl <;> split at he <;> cases he <;>
    simp_all [Pc.stepsLeft, Pc.Fits, Tickets.of]

theorem stepsLeft_leave (hl : c.leaves = some l) (hn : t.topic.next i c = some (pc, e)) :
    pc.stepsLeft (k.set l none) + 1 ≤ c.pc.stepsLeft k := by
  rw [Call.leaves] at hl
  split at hl <;> cases hl <;> cases Topic.next_cases hn <;>
    simp_all [Pc.stepsLeft, Tickets.set]

theorem stepsLeft_work (hf : c.pc.Fits k) (ha : c.awaits = none) (hl : c.leaves = none)
    (hn : t.topic.Next i c pc e) : pc.stepsLeft k + 1 ≤ c.pc.stepsLeft k := by
  cases hn with
  | acquireRead hpc | acquireRemove hpc | acquirePush hpc | acquireWall hpc =>
    rw [Call.awaits, hpc] at ha
    cases ha
  | answerRead hpc | releaseRead hpc | releaseWall hpc | answerWrite hpc =>
    rw [Call.leaves, hpc] at hl
    cases hl
  | readFront hpc | rejectFirst hpc | passFirst hpc | rejectSecond hpc | store hpc
  | failStore hpc | push hpc | pop hpc =>
    rw [hpc]
    simp only [Pc.stepsLeft]
    omega
  | passSecond hpc =>
    rw [hpc] at hf ⊢
    simp only [Pc.stepsLeft, if_pos hf.2]
    omega

def remaining (t : LockedTopic) : Nat := t.callsLeft + t.turnsLeft

def cost : LockedAction → Nat
  | .invoke _ _ => 15
  | _ => 0

theorem remaining_invoke (h : Attending t)
    (hs : t.topic.step hash (.invoke client op) = some v) :
    LockedTopic.callsLeft { t with topic := v, tickets := t.tickets ++ [{}] } ≤
      t.callsLeft + 14 := by
  obtain ⟨-, rfl⟩ := Topic.invoke_cases hs
  have hstart : op.start.stepsLeft {} ≤ 14 := by
    cases op <;> simp [Operation.start, Pc.stepsLeft]
  simp only [callsLeft, Topic.invoked, Topic.emit]
  rw [List.zip_append h.parallel.symm, List.map_append, List.sum_append]
  exact Nat.add_le_add_left hstart _

theorem remaining_step (h : Attending t) (ht : t.step hash a = some u) :
    u.remaining + 1 ≤ t.remaining + cost a := by
  simp only [remaining]
  cases step_locked ht with
  | invoke hs =>
    have hcalls := remaining_invoke h hs
    change _ + t.turnsLeft + 1 ≤ t.callsLeft + t.turnsLeft + 15
    omega
  | @request i c k l u hc hk hl hn hu =>
    have hcalls := (moved_request hc hu (k.set l (some (t.ticket l)))).callsLeft hc hk
    have hturns := turnsLeft_lock (h.inRange hc (Call.awaits_stage hl)) hu
    have hone := stepsLeft_request hl hn (t.ticket l)
    change _ + u.turnsLeft + 1 ≤ _ + 0
    omega
  | @enter i c k l r pc hc hk hl hr hg he =>
    have hcalls := (moved_advanced hk c pc .none).callsLeft_pc hc hk
    have hone := stepsLeft_enter (h.fits i c k hc hk) hl hr he
    change _ + t.turnsLeft + 1 ≤ _ + 0
    omega
  | @leave i c k l r u pc e hc hk hl hr hu hn =>
    have hcalls := (moved_leave hu c (k.set l none) pc e).callsLeft_pc hc hk
    have hturns := turnsLeft_unlock (h.inRange hc (Call.leaves_stage hl)) hu
    have hone := stepsLeft_leave (k := k) hl hn
    change _ + u.turnsLeft + 1 ≤ _ + 0
    omega
  | @work a i c pc e ha _ hc hw hl hn =>
    obtain ⟨k, hk⟩ := h.ticket hc
    have hcalls := (moved_advanced hk c pc e).callsLeft_pc hc hk
    have hone := stepsLeft_work (h.fits i c k hc hk) hw hl hn
    have hcost : cost a = 0 := by
      obtain rfl | ⟨kept, rfl⟩ := ha <;> rfl
    change _ + t.turnsLeft + 1 ≤ _
    omega
  | @wake p s hm =>
    have hone := turnsLeft_wake hm
    change t.callsLeft + _ + 1 ≤ _ + 0
    omega

theorem Visiting.enter (hv : c.operation.visits c.pc = true) (he : c.entered = some pc) :
    c.operation.visits pc = true := by
  rw [Call.entered] at he
  split at he
  case h_1 hpc =>
    cases he
    cases hop : c.operation <;> rw [hop, hpc] at hv <;> first | rfl | cases hv
  case h_2 hpc hop | h_3 hpc hop =>
    cases he
    rw [hop]
    rfl
  case h_4 hpc =>
    cases he
    cases hop : c.operation <;> rw [hop, hpc] at hv <;> first | rfl | cases hv
  case h_5 => cases he

theorem visiting_step (h : t.topic.Visiting) (ht : t.step hash a = some u) :
    u.topic.Visiting := by
  cases step_locked ht with
  | invoke hs => exact h.step hs
  | @request i c k l u hc hk hl hn hu =>
    have hv : u.topic.Visiting := (frame_lock hu).1 ▸ h
    exact hv
  | enter hc _ _ _ _ he => exact h.advanced (Visiting.enter (h _ (List.mem_of_getElem? hc)) he)
  | leave hc _ _ _ _ hn =>
    exact h.advanced ((Topic.next_cases hn).visits (h _ (List.mem_of_getElem? hc)))
  | work _ _ hc _ _ hn => exact h.advanced (hn.visits (h _ (List.mem_of_getElem? hc)))
  | wake => exact h

theorem visiting_of_exec (h : exec (step hash) (init n) acts = some t) : t.topic.Visiting :=
  exec_invariant (I := fun t => t.topic.Visiting) (fun _ _ _ h hs => visiting_step h hs)
    (Topic.visiting_init n) h

/-- Nothing can happen without a new call. -/
def Stuck (hash : Request → Nat) (t : LockedTopic) : Prop :=
  ∀ a u, t.step hash a = some u → a.isInvoke = true

theorem Stuck.waking (hs : Stuck hash t) (p : UInt16) : (t.mutex p).waking = 0 := by
  by_contra hw
  obtain ⟨s, hm⟩ := LockSystem.wake_total (Nat.pos_of_ne_zero hw)
  cases hs (.wake p) _ (Option.map_eq_some_iff.2 ⟨s, hm, rfl⟩)

theorem lock_total (t : LockedTopic) (l : Lock) : ∃ u, t.lock l = some u := by
  cases l with
  | partition p mode =>
    obtain ⟨s, hs⟩ := LockSystem.request_total (t.mutex p) mode
    exact ⟨_, Option.map_eq_some_iff.2 ⟨s, hs, rfl⟩⟩
  | wall => exact ⟨_, rfl⟩

theorem unlock_total (hr : r ∈ t.grants l) : ∃ u, t.unlock r l = some u := by
  cases l with
  | partition p mode =>
    obtain ⟨s, hs⟩ := LockSystem.release_total hr
    exact ⟨_, Option.map_eq_some_iff.2 ⟨s, hs, rfl⟩⟩
  | wall => exact ⟨_, Option.map_eq_some_iff.2 ⟨_, if_pos hr, rfl⟩⟩

theorem entered_total (hv : c.operation.visits c.pc = true) (hl : c.awaits = some l) :
    ∃ pc, c.entered = some pc := by
  rw [Call.awaits] at hl
  split at hl <;> cases hl
  case h_2 hpc =>
    cases hop : c.operation with
    | read =>
      rw [hop, hpc] at hv
      cases hv
    | push | remove => exact ⟨_, by rw [Call.entered, hpc, hop]⟩
  all_goals
    rename_i hpc
    exact ⟨_, by rw [Call.entered, hpc]⟩

theorem canStep_of_idle (hw : c.awaits = none) (hu : c.pc.isFinished = false) :
    t.topic.CanStep c := by
  rw [Call.awaits] at hw
  rw [Topic.CanStep]
  split
  case h_1 hpc | h_2 hpc | h_3 hpc =>
    rw [hpc] at hw
    cases hw
  case h_4 hpc =>
    rw [hpc] at hu
    cases hu
  case h_5 => trivial

theorem stage_unfinished (hs : c.stage l = some stage) : c.pc.isFinished = false := by
  cases hpc : c.pc with
  | finished =>
    cases l with
    | wall =>
      rw [Call.stage, hpc] at hs
      cases hs
    | partition p mode =>
      obtain ⟨-, hs⟩ := Option.ite_none_right_eq_some.1 hs
      rw [hpc] at hs
      cases mode <;> cases hs
  | _ => rfl

section
variable (h : Attending t) (hv : Sound t) (hs : Stuck hash t) (hvis : t.topic.Visiting)
  (hnull : ∀ c ∈ t.topic.calls, ¬ t.topic.DereferencesNull c)

include h hs hvis hnull

/-- An unfinished call has asked for a lock and has not been granted it. -/
theorem waits_of_stuck (hc : t.topic.calls[i]? = some c) (hu : c.pc.isFinished = false) :
    ∃ l r, c.awaits = some l ∧ r ∈ t.waiters l ∧ r ∉ t.grants l ∧
      t.view l i = some (.waits, r) := by
  obtain ⟨k, hk⟩ := h.ticket hc
  have hci := List.mem_of_getElem? hc
  have idle (u) (ht : t.step hash (.advance i) = some u) : False := by cases hs _ u ht
  cases hw : c.awaits with
  | some l =>
    cases hr : k.of l with
    | none =>
      obtain ⟨u, hu⟩ := lock_total t l
      have ht : t.step hash (.request i) =
          some (u.setTickets i (k.set l (some (t.ticket l)))) := by
        simp only [step, hc, hk, hw, Option.bind_some, if_pos hr, hu, Option.map_some]
      cases hs _ _ ht
    | some r =>
      have hview : t.view l i = some (.waits, r) :=
        view_eq_some.2 ⟨c, k, hc, hk, Call.awaits_stage hw, hr⟩
      have hg : r ∉ t.grants l := by
        intro hg
        obtain ⟨pc, he⟩ := entered_total (hvis c hci) hw
        apply idle { t with topic := t.topic.advanced i c pc .none }
        simp only [step, next, release, hc, hk, hw, awaits_leaves hw, hr, he, if_pos hg,
          Option.bind_some, Option.map_some]
      exact ⟨l, r, rfl, ((h.attended l).waiting i r hview).resolve_right hg, hg, hview⟩
  | none =>
    obtain ⟨pc, e, hn⟩ := (canStep_of_idle hw hu).next (i := i) (hvis c hci)
      (hnull c hci)
    cases hl : c.leaves with
    | none =>
      have ht : t.step hash (.advance i) =
          some { t with topic := t.topic.advanced i c pc e } := by
        simp only [step, next, release, hc, hk, hw, hl, hn, Option.bind_some, Option.map_some]
      exact (idle _ ht).elim
    | some l =>
      have hs := Call.leaves_stage hl
      obtain ⟨r, hr⟩ := Call.fits_held (h.fits i c k hc hk) hs
      have hview : t.view l i = some (.holds, r) := view_eq_some.2 ⟨c, k, hc, hk, hs, hr⟩
      obtain ⟨u, hu⟩ := unlock_total ((h.attended l).holding i r hview)
      have ht : t.step hash (.advance i) = some
          { u.setTickets i (k.set l none) with topic := t.topic.advanced i c pc e } := by
        simp only [step, next, release, hc, hk, hw, hl, hr, hn, hu, Option.bind_some,
          Option.map_some]
      exact (idle _ ht).elim

theorem owner_of_stuck (hr : r ∈ t.grants l) : l ≠ .wall ∧ t.waiters .wall ≠ [] := by
  obtain ⟨i, stage, hview⟩ := (h.attended l).owner r (.inr hr)
  obtain ⟨c, k, hc, hk, hst, hkr⟩ := view_eq_some.1 hview
  obtain ⟨m, x, hw, hx, hxg, hxv⟩ :=
    waits_of_stuck h hs hvis hnull hc (stage_unfinished hst)
  have hne : l ≠ m := by
    rintro rfl
    cases hview.symm.trans hxv
    exact hxg hr
  have hm : m = .wall := by
    cases m with
    | wall => rfl
    | partition q other =>
      cases l with
      | partition p mode => cases hst.symm.trans (Call.stage_sole (Call.awaits_stage hw) hne)
      | wall =>
        rw [Call.awaits] at hw
        split at hw <;> cases hw <;> simp_all [Call.stage, Pc.wallStage]
  subst hm
  exact ⟨hne, List.ne_nil_of_mem hx⟩

include hv

theorem grants_of_stuck (l : Lock) : t.grants l = [] := by
  have hwall : t.grants .wall = [] := by
    apply List.eq_nil_iff_forall_not_mem.2
    intro r hr
    exact (owner_of_stuck h hs hvis hnull hr).1 rfl
  apply List.eq_nil_iff_forall_not_mem.2
  intro r hr
  exact (owner_of_stuck h hs hvis hnull hr).2 (hv.ordered.fifoLock.noStranding hwall)

theorem waiters_of_stuck (l : Lock) : t.waiters l = [] := by
  cases l with
  | wall => exact hv.ordered.fifoLock.noStranding (grants_of_stuck h hv hs hvis hnull .wall)
  | partition p mode =>
    apply List.eq_nil_iff_forall_not_mem.2
    intro r hr
    obtain ⟨other, x, hx⟩ := (hv.queued p).grant_of_waiter (hs.waking p) hr
    have hg := grants_of_stuck h hv hs hvis hnull (.partition p other)
    exact List.ne_nil_of_mem hx hg

theorem finished_of_stuck (hc : c ∈ t.topic.calls) : c.pc.isFinished = true := by
  obtain ⟨i, hi⟩ := List.mem_iff_getElem?.1 hc
  rw [← Bool.not_eq_false]
  intro hu
  obtain ⟨l, r, -, hr, -⟩ := waits_of_stuck h hs hvis hnull hi hu
  exact List.ne_nil_of_mem hr (waiters_of_stuck h hv hs hvis hnull l)

theorem free_of_stuck (p : UInt16) : (t.mutex p).mutex = {} := by
  apply (hv.queued p).free
  · exact fun mode => grants_of_stuck h hv hs hvis hnull (.partition p mode)
  · exact fun mode => waiters_of_stuck h hv hs hvis hnull (.partition p mode)

theorem wallFree_of_stuck : t.wallMutex.mutex = {} := by
  have hg := grants_of_stuck h hv hs hvis hnull .wall
  have hw := waiters_of_stuck h hv hs hvis hnull .wall
  have hl : t.wallMutex.mutex.locked = false := by
    rw [← Bool.not_eq_true]
    exact fun hl => hv.ordered.locked_iff.1 hl hg
  change t.wallMutex.mutex.waiters = [] at hw
  generalize t.wallMutex.mutex = m at hl hw
  cases m
  cases hl
  cases hw
  rfl

end

theorem cost_sum (acts : List LockedAction) :
    (acts.map cost).sum = 15 * acts.countP LockedAction.isInvoke := by
  induction acts with
  | nil => rfl
  | cons a as ih =>
    rw [List.map_cons, List.sum_cons, ih, List.countP_cons]
    cases a <;> simp [cost, LockedAction.isInvoke]
    omega

/-- A run takes fifteen steps a call at most, and where it cannot go on every call has its answer
and every mutex is free. -/
theorem calls_settle (h : exec (step hash) (init n) acts = some t) :
    acts.length ≤ 15 * acts.countP LockedAction.isInvoke ∧
    (Stuck hash t → (∀ c ∈ t.topic.calls, ¬ t.topic.DereferencesNull c) →
      (∀ c ∈ t.topic.calls, c.pc.isFinished = true) ∧
      (∀ p, (t.mutex p).mutex = {} ∧ (t.mutex p).waking = 0) ∧ t.wallMutex.mutex = {}) := by
  obtain ⟨ha, hv⟩ := attending_of_exec h
  constructor
  · have keep (s a u) (hi : Attending s ∧ Sound s) (hs : step hash s a = some u) :
        Attending u ∧ Sound u := ⟨hi.1.step hi.2 hs, hi.2.step hs⟩
    have drop (s a u) (hi : Attending s ∧ Sound s) (hs : step hash s a = some u) :
        u.remaining + 1 ≤ s.remaining + cost a := remaining_step hi.1 hs
    have hb := exec_bounded keep drop ⟨attending_init n, sound_init n⟩ h
    have hz : (init n).remaining = 0 := by
      simp [remaining, callsLeft, turnsLeft, init, Topic.init, LockSystem.turns]
    rw [cost_sum, hz] at hb
    omega
  · intro hs hnull
    have hvis := visiting_of_exec h
    refine ⟨?_, fun p => ⟨?_, hs.waking p⟩, ?_⟩
    · exact fun c hc => finished_of_stuck ha hv hs hvis hnull hc
    · exact free_of_stuck ha hv hs hvis hnull p
    · exact wallFree_of_stuck ha hv hs hvis hnull

theorem stuck_of_finished (hfin : ∀ c ∈ t.topic.calls, c.pc.isFinished = true)
    (hwake : ∀ p, (t.mutex p).waking = 0) : Stuck hash t := by
  intro a u hu
  have finished {i : Nat} {c : Call} (hc : t.topic.calls[i]? = some c)
      (hn : c.pc.isFinished = false) : False :=
    Bool.noConfusion (hn.symm.trans (hfin c (List.mem_of_getElem? hc)))
  cases step_locked hu with
  | invoke => rfl
  | request hc _ hl | enter hc _ hl =>
    exact (finished hc (stage_unfinished (Call.awaits_stage hl))).elim
  | leave hc _ hl => exact (finished hc (stage_unfinished (Call.leaves_stage hl))).elim
  | work _ _ hc _ _ hn => exact (finished hc hn.not_finished).elim
  | @wake p m hm =>
    have hw := hwake p
    cases LockSystem.step_section hm with
    | wakeReader hpos | wakeDone hpos => omega

theorem waking_of_mutexes (h : ∀ m ∈ t.mutexes, m.waking = 0) (p : UInt16) :
    (t.mutex p).waking = 0 := by
  rw [mutex, List.getD_eq_getElem?_getD]
  cases hm : t.mutexes[p.toNat]? with
  | none => rfl
  | some m => exact h m (List.mem_of_getElem? hm)

/-- In the end the readers have been woken and all locks are free. -/
theorem calls_settle_contended :
    ∃ t, exec (step fun _ => 0) (init 1) contended = some t ∧
      contended.length ≤ 15 * contended.countP LockedAction.isInvoke ∧ Stuck (fun _ => 0) t ∧
      (∀ c ∈ t.topic.calls, c.pc.isFinished = true) ∧
      (∀ p, (t.mutex p).mutex = {} ∧ (t.mutex p).waking = 0) ∧ t.wallMutex.mutex = {} := by
  have hr : (exec (step fun _ => 0) (init 1) contended).map (fun t =>
      decide ((∀ c ∈ t.topic.calls, c.pc.isFinished = true) ∧
        ∀ m ∈ t.mutexes, m.waking = 0)) = some true := by decide +kernel
  obtain ⟨t, ht, hend⟩ := Option.map_eq_some_iff.1 hr
  obtain ⟨hfin, hwake⟩ := of_decide_eq_true hend
  have hstuck : Stuck (fun _ => 0) t := stuck_of_finished hfin (waking_of_mutexes hwake)
  obtain ⟨hlen, hsettle⟩ := calls_settle ht
  refine ⟨t, ht, hlen, hstuck, hsettle hstuck ?_⟩
  rintro c hc ⟨-, hpc | hpc, -⟩
  · exact absurd (hfin c hc) (by simp [hpc, Pc.isFinished])
  · exact absurd (hfin c hc) (by simp [hpc, Pc.isFinished])

end LockedTopic
end Noctua
