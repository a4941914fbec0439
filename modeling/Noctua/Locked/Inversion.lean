import Noctua.Locked.Step
import Noctua.Topic.Locks

namespace Noctua
open Transition Wall
set_option autoImplicit true

namespace LockedTopic
/-- Everything that a step of the topic can be. -/
inductive LockedStep (hash : Request → Nat) (t : LockedTopic) : LockedAction → LockedTopic → Prop
  where
  | invoke (hs : t.topic.step hash (.invoke client op) = some v) :
      LockedStep hash t (.invoke client op) { t with topic := v, tickets := t.tickets ++ [{}] }
  | request (hc : t.topic.calls[i]? = some c) (hk : t.tickets[i]? = some k)
      (hl : c.awaits = some l) (hn : k.of l = none) (hu : t.lock l = some u) :
      LockedStep hash t (.request i)
        (u.setTickets i (k.set l (some (t.ticket l))))
  | enter (hc : t.topic.calls[i]? = some c) (hk : t.tickets[i]? = some k)
      (hl : c.awaits = some l) (hr : k.of l = some r) (hg : r ∈ t.grants l)
      (he : c.entered = some pc) :
      LockedStep hash t (.advance i) { t with topic := t.topic.advanced i c pc .none }
  | leave (hc : t.topic.calls[i]? = some c) (hk : t.tickets[i]? = some k)
      (hl : c.leaves = some l) (hr : k.of l = some r)
      (hu : t.unlock r l = some u) (hn : t.topic.next i c = some (pc, e)) :
      LockedStep hash t (.advance i)
        { u.setTickets i (k.set l none) with topic := t.topic.advanced i c pc e }
  | work (ha : a = .advance i ∨ ∃ kept, a = .failStore i kept)
      (hs : ∃ b, a.onTopic = some b ∧ t.topic.step hash b = some (t.topic.advanced i c pc e))
      (hc : t.topic.calls[i]? = some c) (hw : c.awaits = none) (hl : c.leaves = none)
      (hn : t.topic.Next i c pc e) :
      LockedStep hash t a { t with topic := t.topic.advanced i c pc e }
  | wake (hm : (t.mutex p).step .wake = some m) : LockedStep hash t (.wake p) (t.setMutex p m)

variable {t u : LockedTopic} {c : Call} {k : Tickets} {p q : UInt16} {l : Lock}
  {hash : Request → Nat}

theorem awaits_leaves (h : c.awaits = some l) : c.leaves = none := by
  rw [Call.awaits] at h
  rw [Call.leaves]
  cases hpc : c.pc <;> rw [hpc] at h <;> first | rfl | cases h

theorem lockedStep_advance (h : t.step hash (.advance i) = some u) :
    LockedStep hash t (.advance i) u := by
  obtain ⟨c, hc, h⟩ := Option.bind_eq_some_iff.1 h
  obtain ⟨k, hk, h⟩ := Option.bind_eq_some_iff.1 h
  obtain ⟨⟨pc, e⟩, hn, h⟩ := Option.bind_eq_some_iff.1 h
  obtain ⟨v, hv, rfl⟩ := Option.map_eq_some_iff.1 h
  rw [next] at hn
  rw [release] at hv
  cases ha : c.awaits with
  | some l =>
    rw [awaits_leaves ha] at hv
    cases hv
    rw [ha] at hn
    obtain ⟨r, hr, hn⟩ := Option.bind_eq_some_iff.1 hn
    obtain ⟨hg, hn⟩ := Option.ite_none_right_eq_some.1 hn
    obtain ⟨pc', he, hm⟩ := Option.map_eq_some_iff.1 hn
    cases hm
    exact .enter hc hk ha hr hg he
  | none =>
    rw [ha] at hn
    change t.topic.next i c = some (pc, e) at hn
    cases hl : c.leaves with
    | none =>
      rw [hl] at hv
      cases hv
      apply LockedStep.work (.inl rfl) ⟨_, rfl, ?_⟩ hc ha hl (Topic.next_cases hn)
      rw [Topic.step, hc, Option.bind_some, hn, Option.map_some]
    | some l =>
      rw [hl] at hv
      obtain ⟨r, hr, hv⟩ := Option.bind_eq_some_iff.1 hv
      obtain ⟨u, hu, rfl⟩ := Option.map_eq_some_iff.1 hv
      exact .leave hc hk hl hr hu hn

theorem lockedStep_failStore (h : t.step hash (.failStore i kept) = some u) :
    LockedStep hash t (.failStore i kept) u := by
  obtain ⟨v, hs, rfl⟩ := Option.map_eq_some_iff.1 h
  obtain ⟨c, pc, e, hc, hpc, hn, rfl⟩ := Topic.failStore_cases hs
  apply LockedStep.work (.inr ⟨kept, rfl⟩) ⟨_, rfl, hs⟩ hc _ _ hn
  · rw [Call.awaits, hpc]
  · rw [Call.leaves, hpc]

theorem step_locked (h : t.step hash a = some u) : LockedStep hash t a u := by
  cases a with
  | invoke client op =>
    obtain ⟨v, hs, rfl⟩ := Option.map_eq_some_iff.1 h
    exact .invoke hs
  | request i =>
    obtain ⟨c, hc, h⟩ := Option.bind_eq_some_iff.1 h
    obtain ⟨k, hk, h⟩ := Option.bind_eq_some_iff.1 h
    obtain ⟨l, hl, h⟩ := Option.bind_eq_some_iff.1 h
    obtain ⟨hn, h⟩ := Option.ite_none_right_eq_some.1 h
    obtain ⟨v, hv, rfl⟩ := Option.map_eq_some_iff.1 h
    exact .request hc hk hl hn hv
  | advance i => exact lockedStep_advance h
  | failStore i kept => exact lockedStep_failStore h
  | wake p =>
    obtain ⟨m, hm, rfl⟩ := Option.map_eq_some_iff.1 h
    exact .wake hm

theorem lock_cases (h : t.lock l = some u) :
    (∃ p mode m, l = .partition p mode ∧ (t.mutex p).step mode.request = some m ∧
      u = t.setMutex p m) ∨
    ∃ m, l = .wall ∧ t.wallMutex.step .lock = some m ∧ u = { t with wallMutex := m } := by
  cases l with
  | partition p mode =>
    obtain ⟨m, hm, rfl⟩ := Option.map_eq_some_iff.1 h
    exact .inl ⟨p, mode, m, rfl, hm, rfl⟩
  | wall =>
    rw [lock] at h
    obtain ⟨m, hm, rfl⟩ := Option.map_eq_some_iff.1 h
    exact .inr ⟨m, rfl, hm, rfl⟩

theorem unlock_cases (h : t.unlock r l = some u) :
    (∃ p mode m, l = .partition p mode ∧ (t.mutex p).step (mode.release r) = some m ∧
      u = t.setMutex p m) ∨
    ∃ m, l = .wall ∧ t.wallMutex.step (.unlock r) = some m ∧ u = { t with wallMutex := m } := by
  cases l with
  | partition p mode =>
    obtain ⟨m, hm, rfl⟩ := Option.map_eq_some_iff.1 h
    exact .inl ⟨p, mode, m, rfl, hm, rfl⟩
  | wall =>
    obtain ⟨m, hm, rfl⟩ := Option.map_eq_some_iff.1 h
    exact .inr ⟨m, rfl, hm, rfl⟩

/-- A section changes nothing but its mutex. -/
def Frame (t u : LockedTopic) : Prop :=
  u.topic = t.topic ∧ u.tickets = t.tickets ∧ u.mutexes.length = t.mutexes.length

theorem frame_lock (h : t.lock l = some u) : Frame t u := by
  obtain ⟨p, mode, m, -, -, rfl⟩ | ⟨m, -, -, rfl⟩ := lock_cases h
  · exact ⟨rfl, rfl, List.length_set⟩
  · exact ⟨rfl, rfl, rfl⟩

theorem frame_unlock (h : t.unlock r l = some u) : Frame t u := by
  obtain ⟨p, mode, m, -, -, rfl⟩ | ⟨m, -, -, rfl⟩ := unlock_cases h
  · exact ⟨rfl, rfl, List.length_set⟩
  · exact ⟨rfl, rfl, rfl⟩

theorem mutex_setMutex_self (h : p.toNat < t.mutexes.length) : (t.setMutex p m).mutex p = m := by
  rw [mutex, setMutex, List.getD_eq_getElem?_getD, List.getElem?_set_self h]
  rfl

theorem mutex_setMutex_ne (h : q ≠ p) : (t.setMutex p m).mutex q = t.mutex q := by
  have hne : p.toNat ≠ q.toNat := fun he => h (UInt16.toNat_inj.1 he.symm)
  rw [mutex, setMutex, List.getD_eq_getElem?_getD, List.getElem?_set_ne hne,
    ← List.getD_eq_getElem?_getD, mutex]

end LockedTopic
end Noctua
