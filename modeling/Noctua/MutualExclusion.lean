import Noctua.LockSections

namespace Noctua
open Transition
set_option autoImplicit true

namespace LockSystem
variable {s t : LockSystem}

/-- The flag and the counter agree with the outstanding grants, and exclude each other. -/
structure Exclusive (s : LockSystem) : Prop where
  readers : s.mutex.readerCount = s.readGrants.length
  writers : s.writeGrants.length = s.mutex.writerActive.toNat
  apart : s.mutex.writerActive = true → s.readGrants = []

theorem Exclusive.mutualExclusion (h : Exclusive s) : MutualExclusion s := by
  refine ⟨h.writers ▸ Bool.toNat_le _, fun hw => h.apart ?_⟩
  cases ha : s.mutex.writerActive with
  | true => rfl
  | false =>
    have hl := h.writers
    rw [ha] at hl
    exact (hw (List.length_eq_zero_iff.1 hl)).elim

theorem exclusive_init : Exclusive {} := ⟨rfl, rfl, fun h => by cases h⟩

theorem exclusive_grant_write (hr : s.mutex.readerCount = 0) (hg : s.readGrants = [])
    (hw : s.writeGrants = []) (ha : s.mutex.writerActive = true) :
    Exclusive (s.grant (.write r)) where
  readers := by simp only [grant, record_mutex, record_readGrants, hr, hg, List.length_nil]
  writers := by simp only [grant, record_mutex, record_writeGrants, hw, ha]; rfl
  apart _ := hg

theorem exclusive_grant_read (hr : s.mutex.readerCount = s.readGrants.length + 1)
    (hw : s.writeGrants = []) (ha : s.mutex.writerActive = false) :
    Exclusive (s.grant (.read r)) where
  readers := by simp only [grant, record_mutex, record_readGrants, hr, List.length_cons]
  writers := by simp only [grant, record_mutex, record_writeGrants, hw, ha]; rfl
  apart h := by
    rw [grant_mutex] at h
    exact absurd (h.symm.trans ha) (by decide)

theorem Exclusive.no_writers (h : Exclusive s) (ha : s.mutex.writerActive = false) :
    s.writeGrants = [] := by
  have hl := h.writers
  rw [ha] at hl
  exact List.length_eq_zero_iff.1 hl

theorem Exclusive.no_readers (h : Exclusive s) (hr : s.mutex.readerCount = 0) :
    s.readGrants = [] := List.length_eq_zero_iff.1 (h.readers.symm.trans hr)

theorem Exclusive.sole_writer (h : Exclusive s) (hr : r ∈ s.writeGrants) :
    s.writeGrants.erase r = [] ∧ s.readGrants = [] := by
  have hne : s.writeGrants ≠ [] := List.ne_nil_of_mem hr
  refine ⟨List.length_eq_zero_iff.1 ?_, h.mutualExclusion.2 hne⟩
  have hle := h.mutualExclusion.1
  rw [List.length_erase_of_mem hr]
  omega

theorem Exclusive.inactive (h : Exclusive s) (hr : r ∈ s.readGrants) :
    s.mutex.writerActive = false := by
  cases ha : s.mutex.writerActive with
  | false => rfl
  | true => exact (List.ne_nil_of_mem hr (h.apart ha)).elim

theorem Exclusive.decrement_readers (h : Exclusive s) (hr : r ∈ s.readGrants) :
    decrement s.mutex.readerCount = (s.readGrants.erase r).length := by
  rw [h.readers, decrement_length hr]

theorem Exclusive.step (h : Exclusive s) (hc : WakesNoReaderPastWriter s a)
    (hs : s.step a = some t) : Exclusive t := by
  cases step_section hs with
  | lockFree ha hr => exact exclusive_grant_write hr (h.no_readers hr) (h.no_writers ha) rfl
  | lockQueued | sharedQueued | wakeDone => exact ⟨h.readers, h.writers, h.apart⟩
  | sharedFree ha =>
    exact exclusive_grant_read (congrArg (· + 1) h.readers) (h.no_writers ha) ha
  | unlockToWriter hr =>
    obtain ⟨hw, hg⟩ := h.sole_writer hr
    exact exclusive_grant_write (h.readers.trans (congrArg List.length hg)) hg hw rfl
  | unlockToReader hr =>
    obtain ⟨hw, hg⟩ := h.sole_writer hr
    exact exclusive_grant_read (congrArg (· + 1) h.readers) hw rfl
  | unlockFree hr =>
    obtain ⟨hw, hg⟩ := h.sole_writer hr
    exact ⟨h.readers, congrArg List.length hw, fun _ => hg⟩
  | unlockSharedToWriter hr hz =>
    have hg := List.length_eq_zero_iff.1 ((h.decrement_readers hr).symm.trans hz)
    exact exclusive_grant_write rfl hg (h.no_writers (h.inactive hr)) rfl
  | unlockSharedKept hr =>
    refine ⟨h.decrement_readers hr, h.writers, fun ha => ?_⟩
    exact absurd (ha.symm.trans (h.inactive hr)) Bool.noConfusion
  | wakeReader hw hq =>
    have ha : s.mutex.writerActive = false := by
      cases ha : s.mutex.writerActive with
      | false => rfl
      | true => cases hq.symm.trans (hc rfl hw ha)
    exact exclusive_grant_read (congrArg (· + 1) h.readers) (h.no_writers ha) ha

theorem step_wake_reader (hw : 0 < s.waking) (hq : s.mutex.sharedWaiters = q :: qs) :
    s.step .wake = some (({ s with mutex := { s.mutex with
      sharedWaiters := qs
      readerCount := s.mutex.readerCount + 1 } } : LockSystem).grant (.read q)) := by
  simp only [step, if_pos hw, SharedMutex.wakeReader_cons hq]

theorem Exclusive.not_step (h : Exclusive s) (hc : ¬ WakesNoReaderPastWriter s a) :
    ∃ t, s.step a = some t ∧ ¬ MutualExclusion t := by
  simp only [WakesNoReaderPastWriter, not_forall] at hc
  obtain ⟨rfl, hw, ha, hq⟩ := hc
  cases hq' : s.mutex.sharedWaiters with
  | nil => exact (hq hq').elim
  | cons q qs =>
    refine ⟨_, step_wake_reader hw hq', fun hm => ?_⟩
    have hne : s.writeGrants ≠ [] := by
      intro he
      have hl := h.writers
      rw [he, ha] at hl
      cases hl
    cases hm.2 hne

/-- Readers and writers exclude each other throughout a run exactly when no turn of the
wake-up loop lets a queued reader in beside an active writer. -/
theorem mutual_exclusion_iff (acts : List LockAction) :
    Throughout step MutualExclusion {} acts ↔
      AllSteps step WakesNoReaderPastWriter {} acts :=
  throughout_iff_allSteps (fun _ _ _ h hc hs => h.step hc hs) (fun _ h => h.mutualExclusion)
    (fun _ _ h hc => h.not_step hc) exclusive_init

/-- The first woken reader leaves and a writer takes the mutex before the second is woken. -/
theorem mutual_exclusion_fails : ¬ ∀ acts, Throughout step MutualExclusion {} acts := by
  intro h
  exact absurd (h [.lock, .lockShared, .lockShared, .unlock 0, .unlockShared 1, .lock, .wake])
    (by decide)

end LockSystem
end Noctua
