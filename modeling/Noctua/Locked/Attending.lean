import Noctua.Locked.Stages

namespace Noctua
open Transition Attendance
set_option autoImplicit true

namespace LockedTopic
variable {t u : LockedTopic} {c d : Call} {j k : Tickets} {p q : UInt16} {l m : Lock} {i : Nat}
  {hash : Request → Nat}

/-- What the mutexes guarantee whatever their readers and writers do. -/
structure Sound (t : LockedTopic) : Prop where
  queued : ∀ p, LockSystem.Queued (t.mutex p)
  ledgered : ∀ p, LockSystem.Ledgered (t.mutex p)
  ordered : UniqueLockSystem.Ordered t.wallMutex

theorem mutex_setMutex (t : LockedTopic) (p q : UInt16) (m : LockSystem) :
    q = p ∧ (t.setMutex p m).mutex q = m ∨ (t.setMutex p m).mutex q = t.mutex q := by
  by_cases hq : q = p
  · subst q
    by_cases hp : p.toNat < t.mutexes.length
    · exact .inl ⟨rfl, mutex_setMutex_self hp⟩
    · rw [setMutex, List.set_eq_of_length_le (Nat.le_of_not_lt hp)]
      exact .inr rfl
  · exact .inr (mutex_setMutex_ne hq)

theorem Sound.setMutex (h : Sound t) (hs : (t.mutex p).step a = some s) :
    Sound (t.setMutex p s) where
  queued q := by
    obtain ⟨rfl, he⟩ | he := mutex_setMutex t p q s
    · rw [he]
      exact (h.queued q).step hs
    · rw [he]
      exact h.queued q
  ledgered q := by
    obtain ⟨rfl, he⟩ | he := mutex_setMutex t p q s
    · rw [he]
      exact (h.ledgered q).step hs
    · rw [he]
      exact h.ledgered q
  ordered := h.ordered

theorem Sound.lock (h : Sound t) (hu : t.lock l = some u) : Sound u := by
  obtain ⟨p, mode, s, -, hs, rfl⟩ | ⟨s, -, hs, rfl⟩ := lock_cases hu
  · exact h.setMutex hs
  · exact ⟨h.queued, h.ledgered, h.ordered.step hs⟩

theorem Sound.unlock (h : Sound t) (hu : t.unlock r l = some u) : Sound u := by
  obtain ⟨p, mode, s, -, hs, rfl⟩ | ⟨s, -, hs, rfl⟩ := unlock_cases hu
  · exact h.setMutex hs
  · exact ⟨h.queued, h.ledgered, h.ordered.step hs⟩

theorem Sound.step (h : Sound t) (hs : t.step hash a = some u) : Sound u := by
  cases step_locked hs with
  | invoke | enter | work => exact ⟨h.queued, h.ledgered, h.ordered⟩
  | request _ _ _ _ hu =>
    have hv := h.lock hu
    exact ⟨hv.queued, hv.ledgered, hv.ordered⟩
  | leave _ _ _ _ hu =>
    have hv := h.unlock hu
    exact ⟨hv.queued, hv.ledgered, hv.ordered⟩
  | wake hm => exact h.setMutex hm

theorem init_mutex (n : Nat) (p : UInt16) : (init n).mutex p = {} := by
  rw [mutex, init, List.getD_eq_getElem?_getD, List.getElem?_replicate]
  split <;> rfl

theorem sound_init (n : Nat) : Sound (init n) where
  queued p := by
    rw [init_mutex]
    exact LockSystem.queued_init
  ledgered p := by
    rw [init_mutex]
    exact Ledger.balanced_nil
  ordered := UniqueLockSystem.ordered_init

def InRange (t : LockedTopic) : Lock → Prop
  | .partition p _ => p.toNat < t.mutexes.length
  | .wall => True

theorem lock_arrival (h : Sound t) (hr : t.InRange l) (hu : t.lock l = some u) :
    Arrival (t.ticket l) (t.waiters l) (t.grants l) (u.waiters l) (u.grants l) := by
  obtain ⟨p, mode, s, rfl, hs, rfl⟩ | ⟨s, rfl, hs, rfl⟩ := lock_cases hu
  · rw [waiters, grants, waiters, grants, mutex_setMutex_self hr]
    exact LockSystem.arrival (h.ledgered p) hs
  · exact h.ordered.arrival hs

theorem lock_other (hu : t.lock l = some u) (hm : m ≠ l) :
    u.waiters m = t.waiters m ∧ u.grants m = t.grants m := by
  obtain ⟨p, mode, s, rfl, hs, rfl⟩ | ⟨s, rfl, hs, rfl⟩ := lock_cases hu
  · cases m with
    | wall => exact ⟨rfl, rfl⟩
    | partition q other =>
      rw [waiters, grants]
      obtain ⟨rfl, he⟩ | he := mutex_setMutex t p q s
      · rw [he]
        exact LockSystem.request_other hs fun ho => hm (by rw [ho])
      · rw [he]
        exact ⟨rfl, rfl⟩
  · cases m with
    | wall => exact (hm rfl).elim
    | partition q other => exact ⟨rfl, rfl⟩

theorem unlock_departure (h : Sound t) (hr : t.InRange l) (hu : t.unlock r l = some u) :
    Departure r (t.waiters l) (t.grants l) (u.waiters l) (u.grants l) := by
  obtain ⟨p, mode, s, rfl, hs, rfl⟩ | ⟨s, rfl, hs, rfl⟩ := unlock_cases hu
  · rw [waiters, grants, waiters, grants, mutex_setMutex_self hr]
    exact LockSystem.departure (h.ledgered p) hs
  · exact h.ordered.departure hs

theorem unlock_other (hu : t.unlock r l = some u) (hm : m ≠ l) :
    Handover (t.waiters m) (t.grants m) (u.waiters m) (u.grants m) := by
  obtain ⟨p, mode, s, rfl, hs, rfl⟩ | ⟨s, rfl, hs, rfl⟩ := unlock_cases hu
  · cases m with
    | wall => exact .refl _ _
    | partition q other =>
      rw [waiters, grants, waiters, grants]
      obtain ⟨rfl, he⟩ | he := mutex_setMutex t p q s
      · rw [he]
        exact LockSystem.release_other hs fun ho => hm (by rw [ho])
      · rw [he]
        exact .refl _ _
  · cases m with
    | wall => exact (hm rfl).elim
    | partition q other => exact .refl _ _

theorem wake_other (hs : (t.mutex p).step .wake = some s) (m : Lock) :
    Handover (t.waiters m) (t.grants m) ((t.setMutex p s).waiters m)
      ((t.setMutex p s).grants m) := by
  cases m with
  | wall => exact .refl _ _
  | partition q mode =>
    rw [waiters, grants, waiters, grants]
    obtain ⟨rfl, he⟩ | he := mutex_setMutex t p q s
    · rw [he]
      exact LockSystem.wake_handover hs mode
    · rw [he]
      exact .refl _ _

def view (t : LockedTopic) (l : Lock) (i : Nat) : Option (Stage × Nat) :=
  t.topic.calls[i]?.bind fun c => t.tickets[i]?.bind fun k => c.entry k l

/-- The queues and the grants of every lock are those of the calls. -/
structure Attending (t : LockedTopic) : Prop where
  parallel : t.tickets.length = t.topic.calls.length
  mutexes : t.mutexes.length = t.topic.storage.length
  ranged : ∀ c ∈ t.topic.calls, c.partition.toNat < t.topic.storage.length
  fits : ∀ (i : Nat) c k, t.topic.calls[i]? = some c → t.tickets[i]? = some k → c.pc.Fits k
  attended : ∀ l, Attended (t.view l) (t.waiters l) (t.grants l)

theorem view_eq_some : t.view l i = some (s, r) ↔ ∃ c k, t.topic.calls[i]? = some c ∧
    t.tickets[i]? = some k ∧ c.stage l = some s ∧ k.of l = some r := by
  simp only [view, Option.bind_eq_some_iff, Call.entry_eq_some, exists_and_left]

theorem view_of (hc : t.topic.calls[i]? = some c) (hk : t.tickets[i]? = some k) :
    t.view l i = c.entry k l := by
  rw [view, hc, Option.bind_some, hk, Option.bind_some]

theorem set_same {xs : List α} (h : xs[i]? = some x) : xs.set i x = xs := by
  obtain ⟨hi, rfl⟩ := List.getElem?_eq_some_iff.1 h
  exact List.set_getElem_self hi

structure Moved (t u : LockedTopic) (i : Nat) (c : Call) (k : Tickets) : Prop where
  calls : u.topic.calls = t.topic.calls.set i c
  tickets : u.tickets = t.tickets.set i k
  storage : u.topic.storage.length = t.topic.storage.length
  mutexes : u.mutexes.length = t.mutexes.length

section
variable (hc : t.topic.calls[i]? = some c) (hk : t.tickets[i]? = some k)

include hc in
theorem moved_request (hu : t.lock l = some u) (j : Tickets) :
    Moved t (u.setTickets i j) i c j := by
  obtain ⟨htopic, htickets, hmutexes⟩ := frame_lock hu
  constructor
  case calls =>
    rw [set_same hc, ← htopic]
    rfl
  case tickets =>
    rw [← htickets]
    rfl
  case storage =>
    rw [← htopic]
    rfl
  case mutexes => exact hmutexes

theorem moved_leave (hu : t.unlock r l = some u) (c : Call) (j : Tickets) (pc : Pc) (e : Effect) :
    Moved t { u.setTickets i j with topic := t.topic.advanced i c pc e } i
      { c with pc := pc } j := by
  obtain ⟨htopic, htickets, hmutexes⟩ := frame_unlock hu
  constructor
  case calls => rw [Topic.advanced, Topic.setPc, Topic.perform_calls]
  case tickets =>
    rw [← htickets]
    rfl
  case storage => exact Topic.advanced_storage_length ..
  case mutexes => exact hmutexes

include hk in
theorem moved_advanced (c : Call) (pc : Pc) (e : Effect) :
    Moved t { t with topic := t.topic.advanced i c pc e } i { c with pc := pc } k := by
  constructor
  case calls => rw [Topic.advanced, Topic.setPc, Topic.perform_calls]
  case tickets => exact (set_same hk).symm
  case storage => exact Topic.advanced_storage_length ..
  case mutexes => rfl

include hc hk

theorem Moved.view (h : Moved t u i d j) (l : Lock) :
    u.view l = Function.update (t.view l) i (d.entry j l) := by
  funext n
  rw [LockedTopic.view, h.calls, h.tickets]
  by_cases hn : n = i
  · subst hn
    rw [Function.update_self, List.getElem?_set_self (List.getElem?_eq_some_iff.1 hc).1,
      List.getElem?_set_self (List.getElem?_eq_some_iff.1 hk).1]
    rfl
  · rw [Function.update_of_ne hn, List.getElem?_set_ne (Ne.symm hn),
      List.getElem?_set_ne (Ne.symm hn), LockedTopic.view]

theorem Attending.moved (h : Attending t) (hm : Moved t u i d j)
    (hp : d.partition = c.partition) (hf : d.pc.Fits j)
    (ha : ∀ l, Attended (Function.update (t.view l) i (d.entry j l)) (u.waiters l) (u.grants l)) :
    Attending u where
  parallel := by
    rw [hm.tickets, hm.calls, List.length_set, List.length_set]
    exact h.parallel
  mutexes := by rw [hm.mutexes, hm.storage, h.mutexes]
  ranged x hx := by
    rw [hm.storage]
    rw [hm.calls] at hx
    obtain hx | rfl := List.mem_or_eq_of_mem_set hx
    · exact h.ranged x hx
    · rw [hp]
      exact h.ranged c (List.mem_of_getElem? hc)
  fits n x y hx hy := by
    rw [hm.calls] at hx
    rw [hm.tickets] at hy
    by_cases hn : n = i
    · subst hn
      rw [List.getElem?_set_self (List.getElem?_eq_some_iff.1 hc).1] at hx
      rw [List.getElem?_set_self (List.getElem?_eq_some_iff.1 hk).1] at hy
      cases hx
      cases hy
      exact hf
    · rw [List.getElem?_set_ne (Ne.symm hn)] at hx hy
      exact h.fits n x y hx hy
  attended l := by
    rw [hm.view hc hk]
    exact ha l

end

theorem update_same (hc : t.topic.calls[i]? = some c) (hk : t.tickets[i]? = some k)
    (he : d.entry j l = c.entry k l) : Function.update (t.view l) i (d.entry j l) = t.view l := by
  rw [he, ← view_of hc hk]
  exact Function.update_eq_self i _

theorem Attending.inRange (h : Attending t) (hc : t.topic.calls[i]? = some c)
    (hl : c.stage l = some s) : t.InRange l := by
  cases l with
  | wall => trivial
  | partition p mode =>
    obtain ⟨rfl, -⟩ := Option.ite_none_right_eq_some.1 hl
    have hp := h.ranged c (List.mem_of_getElem? hc)
    rwa [← h.mutexes] at hp

theorem Attending.view_invoked (h : Attending t) (client : Nat) (op : Operation) (p : UInt16)
    (l : Lock) : LockedTopic.view { t with
      topic := t.topic.invoked client op p
      tickets := t.tickets ++ [{}] } l = t.view l := by
  funext n
  apply Option.ext
  rintro ⟨s, r⟩
  rw [view_eq_some, view_eq_some]
  constructor
  · rintro ⟨c, k, hc, hk, hl, hr⟩
    obtain hc | ⟨rfl, rfl⟩ := Topic.calls_invoked.1 hc
    · have hn := (List.getElem?_eq_some_iff.1 hc).1
      rw [List.getElem?_append_left (h.parallel ▸ hn)] at hk
      exact ⟨c, k, hc, hk, hl, hr⟩
    · rw [← h.parallel, List.getElem?_concat_length] at hk
      cases hk
      cases l <;> cases hr
  · rintro ⟨c, k, hc, hk, hl, hr⟩
    refine ⟨c, k, Topic.calls_invoked.2 (.inl hc), ?_, hl, hr⟩
    rw [List.getElem?_append_left (List.getElem?_eq_some_iff.1 hk).1, hk]

theorem Attending.invoke (h : Attending t)
    (hs : t.topic.step hash (.invoke client op) = some v) :
    Attending { t with topic := v, tickets := t.tickets ++ [{}] } := by
  obtain ⟨hp, rfl⟩ := Topic.invoke_cases hs
  constructor
  case parallel => simp [Topic.invoked, Topic.emit, h.parallel]
  case mutexes => exact h.mutexes
  case ranged =>
    intro c hc
    obtain hc | hc := List.mem_append.1 hc
    · exact h.ranged c hc
    · rw [List.mem_singleton.1 hc]
      exact hp
  case fits =>
    intro n c k hc hk
    obtain hc | ⟨rfl, rfl⟩ := Topic.calls_invoked.1 hc
    · have hn := (List.getElem?_eq_some_iff.1 hc).1
      rw [List.getElem?_append_left (h.parallel ▸ hn)] at hk
      exact h.fits n c k hc hk
    · rw [← h.parallel, List.getElem?_concat_length] at hk
      cases hk
      cases op <;> exact rfl
  case attended =>
    intro l
    rw [h.view_invoked]
    exact h.attended l

section
variable (hc : t.topic.calls[i]? = some c) (hk : t.tickets[i]? = some k)
include hc hk

theorem Attending.request (h : Attending t) (hv : Sound t) (hl : c.awaits = some l)
    (hn : k.of l = none) (hu : t.lock l = some u) :
    Attending (u.setTickets i (k.set l (some (t.ticket l)))) := by
  have hs := Call.awaits_stage hl
  apply h.moved hc hk (moved_request hc hu _) rfl
  · exact Call.fits_request (h.fits i c k hc hk) hl _
  · intro m
    by_cases hm : m = l
    · subst hm
      have he : c.entry (k.set m (some (t.ticket m))) m = some (.waits, t.ticket m) := by
        apply Call.entry_eq_some.2 ⟨hs, ?_⟩
        cases m <;> rfl
      rw [he]
      apply (h.attended m).request _ (lock_arrival hv (h.inRange hc hs) hu)
      rw [view_of hc hk, Call.entry_of_ticket hn]
    · rw [update_same hc hk (Call.entry_set hs hm _)]
      obtain ⟨hw, hg⟩ := lock_other hu hm
      have ha := h.attended m
      rwa [← hw, ← hg] at ha

theorem Attending.enter (h : Attending t) (hl : c.awaits = some l) (hr : k.of l = some r)
    (hg : r ∈ t.grants l) (he : c.entered = some pc) :
    Attending { t with topic := t.topic.advanced i c pc .none } := by
  apply h.moved hc hk (moved_advanced hk c pc .none) rfl
  · exact Call.fits_enter (h.fits i c k hc hk) hl hr he
  · intro m
    by_cases hm : m = l
    · subst hm
      have hd : { c with pc := pc }.entry k m = some (.holds, r) :=
        Call.entry_eq_some.2 ⟨Call.entered_stage hl he, hr⟩
      rw [hd]
      have hview : t.view m i = some (.waits, r) := by
        rw [view_of hc hk, Call.entry_eq_some.2 ⟨Call.awaits_stage hl, hr⟩]
      exact (h.attended m).resume hview hg
    · rw [update_same hc hk (Call.entry_enter (h.fits i c k hc hk) hl he hm)]
      exact h.attended m

theorem Attending.leave (h : Attending t) (hv : Sound t) (hl : c.leaves = some l)
    (hr : k.of l = some r) (hu : t.unlock r l = some u)
    (hn : t.topic.next i c = some (pc, e)) :
    Attending { u.setTickets i (k.set l none) with topic := t.topic.advanced i c pc e } := by
  have hs := Call.leaves_stage hl
  apply h.moved hc hk (moved_leave hu c _ pc e) rfl
  · exact Call.fits_leave (h.fits i c k hc hk) hl hn
  · intro m
    rw [Call.entry_leave hl hn]
    by_cases hm : m = l
    · subst hm
      rw [if_pos rfl]
      apply (h.attended m).release _ (unlock_departure hv (h.inRange hc hs) hu)
      rw [view_of hc hk, Call.entry_eq_some.2 ⟨hs, hr⟩]
    · rw [if_neg hm, update_same hc hk rfl]
      have ho := unlock_other hu hm
      exact (h.attended m).handover ho

theorem Attending.work (h : Attending t) (ha : c.awaits = none) (hl : c.leaves = none)
    (hn : t.topic.Next i c pc e) :
    Attending { t with topic := t.topic.advanced i c pc e } := by
  apply h.moved hc hk (moved_advanced hk c pc e) rfl
  · exact Call.fits_work (h.fits i c k hc hk) ha hl hn
  · intro m
    rw [update_same hc hk (Call.entry_work (h.fits i c k hc hk) ha hl hn m)]
    exact h.attended m

end

theorem Attending.ticket (h : Attending t) (hc : t.topic.calls[i]? = some c) :
    ∃ k, t.tickets[i]? = some k := by
  have hi : i < t.tickets.length := h.parallel ▸ (List.getElem?_eq_some_iff.1 hc).1
  exact ⟨_, List.getElem?_eq_getElem hi⟩

theorem Attending.step (h : Attending t) (hv : Sound t) (ht : t.step hash a = some u) :
    Attending u := by
  cases step_locked ht with
  | invoke hs => exact h.invoke hs
  | request hc hk hl hn hu => exact h.request hc hk hv hl hn hu
  | enter hc hk hl hr hg he => exact h.enter hc hk hl hr hg he
  | leave hc hk hl hr hu hn => exact h.leave hc hk hv hl hr hu hn
  | work _ _ hc ha hl hn =>
    obtain ⟨k, hk⟩ := h.ticket hc
    exact h.work hc hk ha hl hn
  | wake hm =>
    constructor
    case parallel => exact h.parallel
    case mutexes => exact List.length_set.trans h.mutexes
    case ranged => exact h.ranged
    case fits => exact h.fits
    case attended => exact fun m => (h.attended m).handover (wake_other hm m)

theorem attending_init (n : Nat) : Attending (init n) where
  parallel := rfl
  mutexes := by rw [init, List.length_replicate]; exact List.length_replicate.symm
  ranged c hc := by cases hc
  fits i c k hc := by cases hc
  attended l := by
    have hg : (init n).waiters l = [] ∧ (init n).grants l = [] := by
      cases l with
      | wall => exact ⟨rfl, rfl⟩
      | partition p mode =>
        rw [waiters, grants, init_mutex]
        cases mode <;> exact ⟨rfl, rfl⟩
    rw [hg.1, hg.2]
    exact attended_init

/-- In every run the locks know exactly the requests of the calls. -/
theorem attending_of_exec (h : exec (step hash) (init n) acts = some t) :
    Attending t ∧ Sound t :=
  exec_invariant (I := fun t => Attending t ∧ Sound t)
    (fun _ _ _ h hs => ⟨h.1.step h.2 hs, h.2.step hs⟩) ⟨attending_init n, sound_init n⟩ h

end LockedTopic
end Noctua
