import Mathlib.Data.List.Basic
import Mathlib.Logic.Function.Basic

namespace Attendance
open Function
set_option autoImplicit true

/-- A client waits for its request until it goes on; it may have been granted in between. -/
inductive Stage where
  | waits
  | holds
  deriving DecidableEq, Repr

/-- The requests of a lock that are queued and granted are those of its clients. -/
structure Attended (view : κ → Option (Stage × Nat)) (waiters grants : List Nat) : Prop where
  waiting : ∀ i r, view i = some (.waits, r) → r ∈ waiters ∨ r ∈ grants
  holding : ∀ i r, view i = some (.holds, r) → r ∈ grants
  owner : ∀ r, r ∈ waiters ∨ r ∈ grants → ∃ i stage, view i = some (stage, r)
  distinct : ∀ i j r stage stage', view i = some (stage, r) → view j = some (stage', r) → i = j

/-- Requests go from the queue to the grants. -/
structure Handover (ws gs ws' gs' : List Nat) : Prop where
  members : ∀ x, x ∈ ws' ∨ x ∈ gs' ↔ x ∈ ws ∨ x ∈ gs
  kept : ∀ x ∈ gs, x ∈ gs'

/-- A new request is queued or granted at once. -/
structure Arrival (r : Nat) (ws gs ws' gs' : List Nat) : Prop where
  fresh : ¬ (r ∈ ws ∨ r ∈ gs)
  members : ∀ x, x ∈ ws' ∨ x ∈ gs' ↔ x = r ∨ x ∈ ws ∨ x ∈ gs
  kept : ∀ x ∈ gs, x ∈ gs'

/-- A grant is given back, and requests may be granted in turn. -/
structure Departure (r : Nat) (ws gs ws' gs' : List Nat) : Prop where
  members : ∀ x, x ∈ ws' ∨ x ∈ gs' ↔ x ≠ r ∧ (x ∈ ws ∨ x ∈ gs)
  kept : ∀ x ∈ gs, x ≠ r → x ∈ gs'

theorem Handover.refl (ws gs : List Nat) : Handover ws gs ws gs :=
  ⟨fun _ => Iff.rfl, fun _ h => h⟩

theorem handover_cons : Handover (x :: ws) gs ws (x :: gs) where
  members y := by
    rw [List.mem_cons, List.mem_cons, or_left_comm, or_assoc]
  kept _ h := List.mem_cons_of_mem _ h

theorem departure_of (hn : gs.Nodup) (hw : ∀ x ∈ gs, x ∉ ws)
    (hr : r ∈ gs) (hh : Handover ws (gs.erase r) ws' gs') : Departure r ws gs ws' gs' where
  members x := by
    rw [hh.members, hn.mem_erase_iff]
    constructor
    · rintro (hx | ⟨hne, hx⟩)
      · refine ⟨?_, .inl hx⟩
        rintro rfl
        exact hw x hr hx
      · exact ⟨hne, .inr hx⟩
    · rintro ⟨hne, hx | hx⟩
      · exact .inl hx
      · exact .inr ⟨hne, hx⟩
  kept x hx hne := hh.kept x (hn.mem_erase_iff.2 ⟨hne, hx⟩)

variable {view : κ → Option (Stage × Nat)} {ws ws' gs gs' : List Nat} {i : κ} {r : Nat}

theorem attended_init : Attended (fun _ : κ => none) [] [] where
  waiting _ _ h := by cases h
  holding _ _ h := by cases h
  owner _ h := by
    obtain h | h := h <;> cases h
  distinct _ _ _ _ _ h := by cases h

theorem Attended.mem (h : Attended view ws gs) (hv : view i = some (stage, r)) :
    r ∈ ws ∨ r ∈ gs := by
  cases stage with
  | waits => exact h.waiting i r hv
  | holds => exact .inr (h.holding i r hv)

/-- No client notices that its request is granted. -/
theorem Attended.handover (h : Attended view ws gs) (hh : Handover ws gs ws' gs') :
    Attended view ws' gs' where
  waiting j x hv := (hh.members x).2 (h.waiting j x hv)
  holding j x hv := hh.kept x (h.holding j x hv)
  owner x hx := h.owner x ((hh.members x).1 hx)
  distinct := h.distinct

theorem Attended.sole (h : Attended view ws gs) (hl : gs.length ≤ 1) (hi : view i = some (stage, r))
    (hr : r ∈ gs) (hj : view j = some (.holds, r')) : i = j := by
  have hr' := h.holding j r' hj
  obtain ⟨x, rfl⟩ := List.length_eq_one_iff.1 (Nat.le_antisymm hl (List.length_pos_of_mem hr))
  rw [List.mem_singleton.1 hr] at hi
  rw [List.mem_singleton.1 hr'] at hj
  exact h.distinct i j x _ _ hi hj

variable [DecidableEq κ]

theorem Attended.request (h : Attended view ws gs) (hi : view i = none)
    (ha : Arrival r ws gs ws' gs') : Attended (update view i (some (.waits, r))) ws' gs' where
  waiting j x hv := by
    by_cases hj : j = i
    · subst hj
      rw [update_self] at hv
      cases hv
      exact (ha.members _).2 (.inl rfl)
    · rw [update_of_ne hj] at hv
      exact (ha.members x).2 (.inr (h.waiting j x hv))
  holding j x hv := by
    by_cases hj : j = i
    · subst hj
      rw [update_self] at hv
      cases hv
    · rw [update_of_ne hj] at hv
      exact ha.kept x (h.holding j x hv)
  owner x hx := by
    obtain rfl | hx := (ha.members x).1 hx
    · exact ⟨i, .waits, update_self ..⟩
    · obtain ⟨j, stage, hv⟩ := h.owner x hx
      refine ⟨j, stage, ?_⟩
      rw [update_of_ne, hv]
      rintro rfl
      cases hi.symm.trans hv
  distinct j k x stage stage' hj hk := by
    by_cases hji : j = i <;> by_cases hki : k = i
    · exact hji.trans hki.symm
    · subst hji
      rw [update_self] at hj
      rw [update_of_ne hki] at hk
      cases hj
      exact (ha.fresh (h.mem hk)).elim
    · subst hki
      rw [update_self] at hk
      rw [update_of_ne hji] at hj
      cases hk
      exact (ha.fresh (h.mem hj)).elim
    · rw [update_of_ne hji] at hj
      rw [update_of_ne hki] at hk
      exact h.distinct j k x _ _ hj hk

theorem Attended.resume (h : Attended view ws gs) (hi : view i = some (stage, r)) (hr : r ∈ gs) :
    Attended (update view i (some (.holds, r))) ws gs where
  waiting j x hv := by
    by_cases hj : j = i
    · subst hj
      rw [update_self] at hv
      cases hv
    · rw [update_of_ne hj] at hv
      exact h.waiting j x hv
  holding j x hv := by
    by_cases hj : j = i
    · subst hj
      rw [update_self] at hv
      cases hv
      exact hr
    · rw [update_of_ne hj] at hv
      exact h.holding j x hv
  owner x hx := by
    obtain ⟨j, stage', hv⟩ := h.owner x hx
    by_cases hj : j = i
    · subst hj
      cases hi.symm.trans hv
      exact ⟨j, .holds, update_self ..⟩
    · exact ⟨j, stage', by rw [update_of_ne hj, hv]⟩
  distinct j k x s s' hj hk := by
    have own {m : κ} {s : Stage} (hm : update view i (some (.holds, r)) m = some (s, x)) :
        ∃ s, view m = some (s, x) := by
      by_cases he : m = i
      · subst he
        rw [update_self] at hm
        cases hm
        exact ⟨_, hi⟩
      · rw [update_of_ne he] at hm
        exact ⟨_, hm⟩
    obtain ⟨_, hj⟩ := own hj
    obtain ⟨_, hk⟩ := own hk
    exact h.distinct j k x _ _ hj hk

theorem Attended.release (h : Attended view ws gs) (hi : view i = some (.holds, r))
    (hd : Departure r ws gs ws' gs') : Attended (update view i none) ws' gs' where
  waiting j x hv := by
    by_cases hj : j = i
    · subst hj
      rw [update_self] at hv
      cases hv
    · rw [update_of_ne hj] at hv
      refine (hd.members x).2 ⟨?_, h.waiting j x hv⟩
      rintro rfl
      exact hj (h.distinct j i x _ _ hv hi)
  holding j x hv := by
    by_cases hj : j = i
    · subst hj
      rw [update_self] at hv
      cases hv
    · rw [update_of_ne hj] at hv
      apply hd.kept x (h.holding j x hv)
      rintro rfl
      exact hj (h.distinct j i x _ _ hv hi)
  owner x hx := by
    obtain ⟨hne, hx⟩ := (hd.members x).1 hx
    obtain ⟨j, stage, hv⟩ := h.owner x hx
    refine ⟨j, stage, ?_⟩
    rw [update_of_ne, hv]
    rintro rfl
    cases hi.symm.trans hv
    exact hne rfl
  distinct j k x s s' hj hk := by
    have other {m : κ} {s : Stage} (hm : update view i none m = some (s, x)) :
        view m = some (s, x) := by
      by_cases he : m = i
      · subst he
        rw [update_self] at hm
        cases hm
      · rwa [update_of_ne he] at hm
    exact h.distinct j k x _ _ (other hj) (other hk)

end Attendance
