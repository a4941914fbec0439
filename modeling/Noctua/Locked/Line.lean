import Noctua.Locked.Refinement

namespace Noctua
open Transition Attendance
set_option autoImplicit true

namespace LockSystem
variable {s t : LockSystem} {r : Nat}

/-- The writer that has the mutex, and behind it those that wait. -/
def line (s : LockSystem) : List Nat := s.writeGrants ++ s.mutex.uniqueWaiters

theorem line_lock (h : Exclusive s) (hq : Queued s) (hs : s.step .lock = some t) :
    t.line = s.line ++ [s.requests] := by
  cases step_section hs with
  | lockFree ha hr =>
    have hw := h.no_writers ha
    have hu : s.mutex.uniqueWaiters = [] := by
      by_contra hn
      exact (hq.writersHeld hn).elim (· hw) (· (h.no_readers hr))
    rw [line, line, hw, hu, List.nil_append, List.nil_append]
    change (s.requests :: s.writeGrants) ++ s.mutex.uniqueWaiters = [s.requests]
    rw [hw, hu, List.append_nil]
  | lockQueued => exact (List.append_assoc ..).symm

theorem line_unlock (h : Exclusive s) (hs : s.step (.unlock r) = some t) :
    s.line = r :: t.line := by
  have hsole (hr : r ∈ s.writeGrants) : s.writeGrants = [r] := by
    obtain ⟨x, hx⟩ := List.length_eq_one_iff.1
      (Nat.le_antisymm h.mutualExclusion.1 (List.length_pos_of_mem hr))
    rw [hx] at hr ⊢
    rw [List.mem_singleton.1 hr]
  cases step_section hs with
  | @unlockToWriter _ w ws hr hu =>
    rw [line, hsole hr, hu, line]
    change _ = r :: ((w :: s.writeGrants.erase r) ++ ws)
    rw [hsole hr, List.erase_cons_head]
    rfl
  | unlockToReader hr hu | unlockFree hr hu =>
    rw [line, hsole hr, hu, line]
    change _ = r :: (s.writeGrants.erase r ++ s.mutex.uniqueWaiters)
    rw [hsole hr, hu, List.erase_cons_head]
    rfl

theorem line_other (h : Exclusive s) (hs : s.step a = some t) (hl : a ≠ .lock)
    (hn : ∀ r, a ≠ .unlock r) : t.line = s.line := by
  cases step_section hs with
  | lockFree | lockQueued => exact (hl rfl).elim
  | unlockToWriter | unlockToReader | unlockFree => exact (hn _ rfl).elim
  | sharedFree | sharedQueued | unlockSharedKept | wakeReader | wakeDone => rfl
  | @unlockSharedToWriter _ w ws hr hz hu =>
    have hw := h.no_writers (h.inactive hr)
    rw [line, line, hu, hw]
    change (w :: s.writeGrants) ++ ws = _
    rw [hw]
    rfl

end LockSystem

/-- Whether a lock is granted to one call at a time. -/
def Lock.single : Lock → Bool
  | .partition _ .read => false
  | _ => true

namespace Call

/-- The lock that a call uses in its next step for what it took it for. -/
def uses (c : Call) : Option Lock :=
  match c.pc with
  | .store => some .wall
  | .mutate => some (.partition c.partition .write)
  | _ => none

/-- Whether a call has nothing left to do with a lock but to give it back. -/
def used (c : Call) (l : Lock) : Bool :=
  match l, c.pc with
  | .wall, .releaseWall => true
  | .partition p .write, .releaseWrite _ => c.partition = p
  | _, _ => false

end Call

namespace UniqueLockSystem
variable {s t : UniqueLockSystem} {r : Nat}

def line (s : UniqueLockSystem) : List Nat := s.unreleased ++ s.mutex.waiters

theorem line_lock (h : Ordered s) (hs : s.step .lock = some t) :
    t.line = s.line ++ [s.requests] := by
  cases step_section hs with
  | lockFree hm =>
    simp only [line, h.handover hm, List.append_nil]
  | lockQueued => exact (List.append_assoc ..).symm

theorem line_unlock (h : Ordered s) (hs : s.step (.unlock r) = some t) : s.line = r :: t.line := by
  cases step_section hs with
  | unlockFree hr hw =>
    rw [line, line, h.sole_holder hr, hw, List.erase_cons_head]
    rfl
  | unlockTo hr hw =>
    rw [line, line, h.sole_holder hr, hw, List.erase_cons_head]
    rfl

end UniqueLockSystem

namespace LockedTopic
variable {t u : LockedTopic} {c d : Call} {j k : Tickets} {p : UInt16} {l m : Lock} {i : Nat}
  {hash : Request → Nat}

def line (t : LockedTopic) (l : Lock) : List Nat := t.grants l ++ t.waiters l

/-- What the order of a lock rests on. -/
def Guarded (l : Lock) (t : LockedTopic) : Prop := l = .wall ∨ Excludes t

theorem Guarded.exclusive (hg : Guarded (.partition p .write) t) :
    LockSystem.Exclusive (t.mutex p) := by
  obtain hg | hg := hg
  · cases hg
  · exact hg p

theorem line_lock_other (hu : t.lock m = some u) (hm : l ≠ m) : u.line l = t.line l := by
  obtain ⟨hw, hgr⟩ := lock_other hu hm
  rw [line, hw, hgr, line]

section
variable (hv : Sound t) (hg : Guarded l t) (hl : l.single = true)
include hg hl

include hv in
theorem line_lock (hr : t.InRange l) (hu : t.lock l = some u) :
    u.line l = t.line l ++ [t.ticket l] := by
  obtain ⟨p, mode, s, rfl, hs, rfl⟩ | ⟨s, rfl, hs, rfl⟩ := lock_cases hu
  · cases mode with
    | read => cases hl
    | write =>
      have hline := LockSystem.line_lock hg.exclusive (hv.queued p) hs
      rw [line, grants, waiters, mutex_setMutex_self hr]
      exact hline
  · exact UniqueLockSystem.line_lock hv.ordered hs

include hv in
theorem line_unlock (hr : t.InRange l) (hu : t.unlock r l = some u) :
    t.line l = r :: u.line l := by
  obtain ⟨p, mode, s, rfl, hs, rfl⟩ | ⟨s, rfl, hs, rfl⟩ := unlock_cases hu
  · cases mode with
    | read => cases hl
    | write =>
      have hline := LockSystem.line_unlock hg.exclusive hs
      rw [line.eq_def (t.setMutex p s), grants, waiters, mutex_setMutex_self hr]
      exact hline
  · exact UniqueLockSystem.line_unlock hv.ordered hs

theorem line_setMutex (hs : (t.mutex p).step a = some s)
    (ho : ∀ q, l = .partition q .write → q = p → a ≠ .lock ∧ ∀ r, a ≠ .unlock r) :
    (t.setMutex p s).line l = t.line l := by
  cases l with
  | wall => rfl
  | partition q mode =>
    cases mode with
    | read => cases hl
    | write =>
      rw [line, grants, waiters]
      obtain ⟨rfl, he⟩ | he := mutex_setMutex t p q s
      · rw [he]
        obtain ⟨h1, h2⟩ := ho q rfl rfl
        exact LockSystem.line_other hg.exclusive hs h1 h2
      · rw [he]
        rfl

theorem line_unlock_other (hu : t.unlock r m = some u) (hm : l ≠ m) : u.line l = t.line l := by
  obtain ⟨p, mode, s, rfl, hs, rfl⟩ | ⟨s, rfl, hs, rfl⟩ := unlock_cases hu
  · apply line_setMutex hg hl hs
    rintro q rfl rfl
    cases mode with
    | read => exact ⟨nofun, nofun⟩
    | write => exact (hm rfl).elim
  · cases l with
    | wall => exact (hm rfl).elim
    | partition => rfl

theorem line_wake (hs : (t.mutex p).step .wake = some s) : (t.setMutex p s).line l = t.line l :=
  line_setMutex hg hl hs fun _ _ _ => ⟨nofun, nofun⟩

end

/-- The calls that ask for a lock. -/
def asks (l : Lock) (t : LockedTopic) : LockedAction → List Nat
  | .request i => if t.topic.calls[i]?.bind Call.awaits = some l then [i] else []
  | _ => []

/-- The calls that use a lock: that write to the file, or that change the partition. -/
def uses (l : Lock) (t : LockedTopic) : LockedAction → List Nat
  | .advance i | .failStore i _ => if t.topic.calls[i]?.bind Call.uses = some l then [i] else []
  | _ => []

def usedBy (t : LockedTopic) (l : Lock) (i : Nat) : Bool := t.topic.calls[i]?.any (·.used l)

def taken (t : LockedTopic) (l : Lock) : List Nat → List Nat
  | i :: _ => if t.usedBy l i then [i] else []
  | [] => []

/-- Of the calls that have asked, `served` are done with the lock and `queue` stand in line;
`users` are those that have used it. -/
structure Turns (l : Lock) (t : LockedTopic) (served queue users : List Nat) : Prop where
  line : List.Forall₂ (fun r i => ∃ stage, t.view l i = some (stage, r)) (t.line l) queue
  used : users.Sublist (served ++ t.taken l queue)
  exact : l = .wall → users = served ++ t.taken l queue

variable {served queue users : List Nat}

theorem taken_mono (h : ∀ i ∈ queue.head?, t.usedBy l i = true → u.usedBy l i = true) :
    (t.taken l queue).Sublist (u.taken l queue) := by
  cases queue with
  | nil => exact .refl _
  | cons i queue =>
    rw [taken, taken]
    split
    · rename_i hi
      rw [if_pos (h i rfl hi)]
    · exact List.nil_sublist _

theorem taken_congr (h : ∀ i ∈ queue.head?, u.usedBy l i = t.usedBy l i) :
    u.taken l queue = t.taken l queue := by
  cases queue with
  | nil => rfl
  | cons i queue => rw [taken, taken, h i rfl]

theorem Turns.keep (h : Turns l t served queue users) (hl : u.line l = t.line l)
    (hview : ∀ i s r, t.view l i = some (s, r) → ∃ s, u.view l i = some (s, r))
    (hused : ∀ i s r, t.view l i = some (s, r) → t.usedBy l i = true → u.usedBy l i = true)
    (hwall : l = .wall → ∀ i s r, t.view l i = some (s, r) → u.usedBy l i = t.usedBy l i) :
    Turns l u served queue users := by
  have hview' : ∀ i ∈ queue.head?, ∃ s r, t.view l i = some (s, r) := by
    intro i hi
    cases queue with
    | nil => cases hi
    | cons j queue =>
      cases hi
      obtain ⟨r, -, ⟨s, hx⟩, -⟩ := List.forall₂_cons_right_iff.1 h.line
      exact ⟨s, r, hx⟩
  constructor
  case line =>
    rw [hl]
    refine h.line.imp fun r i hi => ?_
    obtain ⟨s, hi⟩ := hi
    exact hview i s r hi
  case used =>
    apply h.used.trans
    apply List.Sublist.append_left
    apply taken_mono
    intro i hi
    obtain ⟨s, r, hi⟩ := hview' i hi
    exact hused i s r hi
  case exact =>
    intro hw
    rw [h.exact hw]
    congr 1
    apply (taken_congr _).symm
    intro i hi
    obtain ⟨s, r, hi⟩ := hview' i hi
    exact hwall hw i s r hi

theorem used_stage (h : c.used l = true) : c.stage l = some .holds := by
  unfold Call.used at h
  split at h
  case h_1 hpc =>
    rw [Call.stage, hpc]
    rfl
  case h_2 hpc =>
    rw [Call.stage, if_pos (of_decide_eq_true h), hpc]
    rfl
  case h_3 => cases h

theorem usedBy_of (hc : t.topic.calls[i]? = some c) : t.usedBy l i = c.used l := by
  rw [usedBy, hc, Option.any_some]

theorem Moved.usedBy (h : Moved t u i d k) (hc : t.topic.calls[i]? = some c) (l : Lock) (n : Nat) :
    u.usedBy l n = if n = i then d.used l else t.usedBy l n := by
  rw [LockedTopic.usedBy, h.calls]
  split
  · rename_i hn
    rw [hn, List.getElem?_set_self (List.getElem?_eq_some_iff.1 hc).1, Option.any_some]
  · rename_i hn
    rw [List.getElem?_set_ne (Ne.symm hn), LockedTopic.usedBy]

theorem head_of_view (ha : Attending t) (h : Turns l t served queue users)
    (hl : t.line l = r :: rs) (hview : t.view l i = some (stage, r)) :
    ∃ rest, queue = i :: rest ∧
      List.Forall₂ (fun x n => x ∈ rs ∧ ∃ stage, t.view l n = some (stage, x)) rs rest := by
  have hq := h.line
  rw [hl] at hq
  obtain ⟨n, rest, ⟨s, hn⟩, hrest, rfl⟩ := List.forall₂_cons_left_iff.1 hq
  obtain rfl := (ha.attended l).distinct i n r stage s hview hn
  exact ⟨rest, rfl, (List.forall₂_and_left rs rest).2 ⟨fun _ hx => hx, hrest⟩⟩

section
variable (hc : t.topic.calls[i]? = some c) (hk : t.tickets[i]? = some k)
include hc hk

theorem Turns.moved (h : Turns l t served queue users) (hm : Moved t u i d j)
    (hl : u.line l = t.line l)
    (hentry : ∀ s r, c.entry k l = some (s, r) → ∃ s, d.entry j l = some (s, r))
    (hused : c.used l = true → d.used l = true) (hwall : l = .wall → d.used l = c.used l) :
    Turns l u served queue users := by
  apply h.keep hl
  · intro n s r hn
    rw [hm.view hc hk]
    by_cases hni : n = i
    · subst hni
      rw [view_of hc hk] at hn
      rw [Function.update_self]
      exact hentry s r hn
    · rw [Function.update_of_ne hni]
      exact ⟨s, hn⟩
  · intro n s r hn hu
    rw [hm.usedBy hc]
    split
    · rename_i hni
      rw [hni, usedBy_of hc] at hu
      exact hused hu
    · exact hu
  · intro hw n s r hn
    rw [hm.usedBy hc]
    split
    · rename_i hni
      rw [hni, usedBy_of hc]
      exact hwall hw
    · rfl

theorem Turns.ask (h : Turns l t served queue users) (hm : Moved t u i c j)
    (hl : u.line l = t.line l ++ [r]) (hfree : c.entry k l = none)
    (hentry : c.entry j l = some (stage, r)) (hused : c.used l = false) :
    Turns l u served (queue ++ [i]) users := by
  have hview (n) (s) (x) (hn : t.view l n = some (s, x)) : u.view l n = some (s, x) := by
    rw [hm.view hc hk, Function.update_of_ne _, hn]
    rintro rfl
    rw [view_of hc hk, hfree] at hn
    cases hn
  have hself : u.view l i = some (stage, r) := by
    rw [hm.view hc hk, Function.update_self, hentry]
  have htaken : u.taken l (queue ++ [i]) = t.taken l queue := by
    have hsame (n) : u.usedBy l n = t.usedBy l n := by
      rw [hm.usedBy hc]
      split
      · rename_i hni
        rw [hni, usedBy_of hc]
      · rfl
    cases queue with
    | nil =>
      rw [List.nil_append, taken, taken, hsame, usedBy_of hc, hused]
      rfl
    | cons n queue => rw [List.cons_append, taken, taken, hsame]
  constructor
  case line =>
    rw [hl]
    apply List.rel_append
    · refine h.line.imp fun x n hn => ?_
      obtain ⟨s, hn⟩ := hn
      exact ⟨s, hview n s x hn⟩
    · exact .cons ⟨stage, hself⟩ .nil
  case used =>
    rw [htaken]
    exact h.used
  case exact =>
    rw [htaken]
    exact h.exact

theorem Turns.use (h : Turns l t served queue users) (hm : Moved t u i d k)
    (ha : Attending t) (hl : t.line l = r :: rs) (hl' : u.line l = t.line l)
    (hview : t.view l i = some (stage, r)) (hentry : d.entry k l = c.entry k l)
    (hfirst : c.used l = false) (hused : d.used l = true) :
    Turns l u served queue (users ++ [i]) := by
  obtain ⟨rest, rfl, -⟩ := head_of_view ha h hl hview
  have hsame : u.view l = t.view l := by
    rw [hm.view hc hk, update_same hc hk hentry]
  have hbefore : t.taken l (i :: rest) = [] := by
    rw [taken, usedBy_of hc, hfirst]
    rfl
  have hafter : u.taken l (i :: rest) = [i] := by
    rw [taken, hm.usedBy hc, if_pos rfl, hused]
    rfl
  constructor
  case line =>
    rw [hl', hsame]
    exact h.line
  case used =>
    have hu := h.used
    rw [hbefore, List.append_nil] at hu
    rw [hafter]
    exact hu.append (.refl _)
  case exact =>
    intro hw
    have hu := h.exact hw
    rw [hbefore, List.append_nil] at hu
    rw [hafter, hu]

theorem Turns.leave (h : Turns l t served queue users) (hm : Moved t u i d j)
    (ha : Attending t) (hone : (t.grants l).length ≤ 1) (hl : t.line l = r :: u.line l)
    (hfresh : r ∉ u.line l) (hview : t.view l i = some (.holds, r)) (hused : c.used l = true) :
    ∃ rest, queue = i :: rest ∧ Turns l u (served ++ [i]) rest users := by
  obtain ⟨rest, rfl, hrest⟩ := head_of_view ha h hl hview
  have htaken : t.taken l (i :: rest) = [i] := by
    rw [taken, usedBy_of hc, hused]
    rfl
  have other (x n) (hx : x ∈ u.line l) (hn : ∃ s, t.view l n = some (s, x)) : n ≠ i := by
    rintro rfl
    obtain ⟨s, hn⟩ := hn
    cases hview.symm.trans hn
    exact hfresh hx
  have hnone : u.taken l rest = [] := by
    cases rest with
    | nil => rfl
    | cons n rest =>
      obtain ⟨x, -, ⟨hx, hn⟩, -⟩ := List.forall₂_cons_right_iff.1 hrest
      have hni := other x n hx hn
      rw [taken, if_neg]
      rw [hm.usedBy hc, if_neg hni]
      intro hu
      cases he : t.topic.calls[n]? with
      | none =>
        rw [usedBy, he] at hu
        cases hu
      | some e =>
        -- a call further down the line cannot have used the lock
        rw [usedBy_of he] at hu
        obtain ⟨y, hy, -⟩ := ha.holder he (used_stage hu)
        have hr := (ha.attended l).holding i r hview
        exact hni ((ha.attended l).sole hone hview hr hy).symm
  refine ⟨rest, rfl, ?_⟩
  constructor
  case line =>
    refine hrest.imp fun x n hn => ?_
    obtain ⟨s, hv⟩ := hn.2
    refine ⟨s, ?_⟩
    rw [hm.view hc hk, Function.update_of_ne (other x n hn.1 hn.2), hv]
  case used =>
    rw [hnone, List.append_nil, ← htaken]
    exact h.used
  case exact =>
    intro hw
    rw [hnone, List.append_nil, ← htaken]
    exact h.exact hw

end

end LockedTopic
end Noctua
