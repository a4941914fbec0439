import Noctua.LockAccounting

namespace Noctua
open Transition
set_option autoImplicit true

namespace LockEvent

@[simp] def writeRequest : LockEvent → Option Nat
  | .requestedWrite r => some r
  | _ => none

@[simp] def readRequest : LockEvent → Option Nat
  | .requestedRead r => some r
  | _ => none

@[simp] def writeGrant : LockEvent → Option Nat
  | .granted (.write r) => some r
  | _ => none

@[simp] def readGrant : LockEvent → Option Nat
  | .granted (.read r) => some r
  | _ => none

end LockEvent

namespace LockSystem
variable {s t : LockSystem}

def writesRequested (s : LockSystem) : List Nat := s.logged LockEvent.writeRequest

def readsRequested (s : LockSystem) : List Nat := s.logged LockEvent.readRequest

def writesGranted (s : LockSystem) : List Nat := s.logged LockEvent.writeGrant

def readsGranted (s : LockSystem) : List Nat := s.logged LockEvent.readGrant

/-- Writers have been granted the mutex in the order in which they asked, and the fast path of
`async_lock` is closed while one of them is queued. -/
def WritersInOrder (s : LockSystem) : Prop :=
  s.writesGranted <+: s.writesRequested ∧
    (s.mutex.uniqueWaiters ≠ [] → (s.mutex.asyncLock s.requests).2 = .none)

/-- A read request made while a write request is queued is not granted before it. -/
def NoReaderPassesWriter (acts : List LockAction) : Prop :=
  ∀ as bs s t w, as ++ .lockShared :: bs <+: acts →
    exec step {} as = some s → w ∈ s.mutex.uniqueWaiters →
    exec step {} (as ++ .lockShared :: bs) = some t →
    s.requests ∈ t.readsGranted → w ∈ t.writesGranted

/-- A reader that a turn of the wake-up loop finds at the head of its queue asked before every
writer that is queued by then. -/
def WakesEarlierReader (s : LockSystem) (a : LockAction) : Prop :=
  a = .wake → 0 < s.waking →
    ∀ q ∈ s.mutex.sharedWaiters.head?, ∀ w ∈ s.mutex.uniqueWaiters, q < w

/-- The queue holds the write requests not granted yet, and someone who will serve it exists. -/
structure InLine (s : LockSystem) : Prop where
  order : s.writesGranted ++ s.mutex.uniqueWaiters = s.writesRequested
  busy : s.mutex.uniqueWaiters ≠ [] → s.mutex.writerActive = true ∨ s.mutex.readerCount ≠ 0

theorem InLine.nobody (h : InLine s) (ha : s.mutex.writerActive = false)
    (hr : s.mutex.readerCount = 0) : s.mutex.uniqueWaiters = [] := by
  by_contra hne
  obtain hw | hn := h.busy hne
  · cases hw.symm.trans ha
  · exact hn hr

theorem InLine.writersInOrder (h : InLine s) : WritersInOrder s := by
  refine ⟨⟨_, h.order⟩, fun hne => ?_⟩
  rw [SharedMutex.asyncLock, if_neg]
  intro hf
  exact hne (h.nobody hf.1 hf.2)

theorem inLine_init : InLine {} := ⟨rfl, fun hne => (hne rfl).elim⟩

theorem InLine.admit (h : InLine s) (hn : s.mutex.uniqueWaiters = [])
    (hg : t.writesGranted = s.writesGranted ++ [r])
    (hr : t.writesRequested = s.writesRequested ++ [r])
    (hq : t.mutex.uniqueWaiters = s.mutex.uniqueWaiters) (ha : t.mutex.writerActive = true) :
    InLine t where
  order := by
    have ho := h.order
    rw [hn, List.append_nil] at ho
    rw [hg, hr, hq, hn, ho, List.append_nil]
  busy _ := .inl ha

theorem InLine.enqueue (h : InLine s) (hg : t.writesGranted = s.writesGranted)
    (hr : t.writesRequested = s.writesRequested ++ [r])
    (hq : t.mutex.uniqueWaiters = s.mutex.uniqueWaiters ++ [r])
    (hb : t.mutex.writerActive = true ∨ t.mutex.readerCount ≠ 0) : InLine t where
  order := by rw [hg, hr, hq, ← h.order, List.append_assoc]
  busy _ := hb

theorem InLine.handover (h : InLine s) (hu : s.mutex.uniqueWaiters = w :: ws)
    (hg : t.writesGranted = s.writesGranted ++ [w]) (hr : t.writesRequested = s.writesRequested)
    (hq : t.mutex.uniqueWaiters = ws) (ha : t.mutex.writerActive = true) : InLine t where
  order := by rw [hg, hr, hq, ← h.order, hu, List.append_assoc, List.singleton_append]
  busy _ := .inl ha

theorem InLine.unaffected (h : InLine s) (hg : t.writesGranted = s.writesGranted)
    (hr : t.writesRequested = s.writesRequested)
    (hq : t.mutex.uniqueWaiters = s.mutex.uniqueWaiters)
    (hb : s.mutex.uniqueWaiters ≠ [] → t.mutex.writerActive = true ∨ t.mutex.readerCount ≠ 0) :
    InLine t where
  order := by rw [hg, hr, hq, h.order]
  busy hne := hb (hq ▸ hne)

theorem InLine.step (h : InLine s) (hs : s.step a = some t) : InLine t := by
  cases step_section hs with
  | lockFree ha hr =>
    apply h.admit (r := s.requests) (h.nobody ha hr)
    · simp [writesGranted]
    · simp [writesRequested]
    · rfl
    · rfl
  | lockQueued hf =>
    apply h.enqueue (r := s.requests)
    · simp [writesGranted]
    · simp [writesRequested]
    · rfl
    · exact hf
  | sharedFree =>
    apply h.unaffected
    · simp [writesGranted]
    · simp [writesRequested]
    · rfl
    · exact fun _ => .inr (Nat.succ_ne_zero _)
  | sharedQueued =>
    apply h.unaffected
    · simp [writesGranted]
    · simp [writesRequested]
    · rfl
    · exact h.busy
  | unlockToWriter hr hu =>
    apply h.handover hu
    · simp [writesGranted]
    · simp [writesRequested]
    · rfl
    · rfl
  | unlockToReader =>
    apply h.unaffected
    · simp [writesGranted]
    · simp [writesRequested]
    · rfl
    · exact fun _ => .inr (Nat.succ_ne_zero _)
  | unlockFree hr hu =>
    apply h.unaffected
    · simp [writesGranted]
    · simp [writesRequested]
    · rfl
    · exact fun hne => (hne hu).elim
  | unlockSharedToWriter hr hz hu =>
    apply h.handover hu
    · simp [writesGranted]
    · simp [writesRequested]
    · rfl
    · rfl
  | unlockSharedKept hr hk =>
    apply h.unaffected
    · simp [writesGranted]
    · simp [writesRequested]
    · rfl
    · exact fun hne => .inr (hk.resolve_right hne)
  | wakeReader =>
    apply h.unaffected
    · simp [writesGranted]
    · simp [writesRequested]
    · rfl
    · exact fun _ => .inr (Nat.succ_ne_zero _)
  | wakeDone => exact h.unaffected rfl rfl rfl h.busy

/-- Write grants are made in the order of the requests, in every run. -/
theorem writers_in_order (acts : List LockAction) : Throughout step WritersInOrder {} acts := by
  apply Throughout.mono (I := InLine) _ fun _ h => h.writersInOrder
  exact throughout_of_allSteps (fun _ _ _ h _ hs => h.step hs) inLine_init (allSteps_true _ acts)

theorem Ledgered.asked (h : Ledgered s) (hr : r ∈ s.granted) : r < s.requests := by
  have hm := List.mem_append_right s.waiting (h.grants.subset hr)
  exact List.mem_range.1 (h.states.subset hm)

theorem Ledgered.not_granted (h : Ledgered s) (hr : r ∈ s.waiting) : r ∉ s.granted := by
  intro hg
  have hn := h.states.nodup_iff.2 List.nodup_range
  exact List.disjoint_of_nodup_append hn hr (h.grants.subset hg)

theorem Ledgered.numbered (h : Ledgered s) (hr : r ∈ s.waiting) : r < s.requests :=
  List.mem_range.1 (h.states.subset (List.mem_append_left _ hr))

theorem granted_of_read (hr : r ∈ s.readsGranted) : r ∈ s.granted := by
  obtain ⟨e, he, hg⟩ := List.mem_filterMap.1 hr
  refine List.mem_filterMap.2 ⟨e, he, ?_⟩
  cases e with
  | granted g => cases g with
    | read r => exact hg
    | _ => cases hg
  | _ => cases hg

theorem granted_of_write (hr : r ∈ s.writesGranted) : r ∈ s.granted := by
  obtain ⟨e, he, hg⟩ := List.mem_filterMap.1 hr
  refine List.mem_filterMap.2 ⟨e, he, ?_⟩
  cases e with
  | granted g => cases g with
    | write r => exact hg
    | _ => cases hg
  | _ => cases hg

structure ReadersAsked (s : LockSystem) : Prop where
  waiting : s.mutex.sharedWaiters ⊆ s.readsRequested
  granted : s.readsGranted ⊆ s.readsRequested

theorem ReadersAsked.unaffected (h : ReadersAsked s)
    (hq : t.mutex.sharedWaiters = s.mutex.sharedWaiters) (hg : t.readsGranted = s.readsGranted)
    (hr : t.readsRequested = s.readsRequested) : ReadersAsked t where
  waiting := by rw [hq, hr]; exact h.waiting
  granted := by rw [hg, hr]; exact h.granted

theorem ReadersAsked.wake (h : ReadersAsked s) (hq : s.mutex.sharedWaiters = q :: qs)
    (hw : t.mutex.sharedWaiters = qs) (hg : t.readsGranted = s.readsGranted ++ [q])
    (hr : t.readsRequested = s.readsRequested) : ReadersAsked t := by
  have hs := h.waiting
  rw [hq, List.cons_subset] at hs
  constructor
  case waiting =>
    rw [hw, hr]
    exact hs.2
  case granted =>
    rw [hg, hr]
    exact List.append_subset.2 ⟨h.granted, List.cons_subset.2 ⟨hs.1, List.nil_subset _⟩⟩

theorem ReadersAsked.ask (h : ReadersAsked s) (hr : t.readsRequested = s.readsRequested ++ [r])
    (hq : t.mutex.sharedWaiters ⊆ s.mutex.sharedWaiters ++ [r])
    (hg : t.readsGranted ⊆ s.readsGranted ++ [r]) : ReadersAsked t where
  waiting q hm := by
    rw [hr]
    exact (List.mem_append.1 (hq hm)).elim (fun h' => List.mem_append_left _ (h.waiting h'))
      (List.mem_append_right _)
  granted q hm := by
    rw [hr]
    exact (List.mem_append.1 (hg hm)).elim (fun h' => List.mem_append_left _ (h.granted h'))
      (List.mem_append_right _)

theorem ReadersAsked.step (h : ReadersAsked s) (hs : s.step a = some t) : ReadersAsked t := by
  cases step_section hs with
  | lockFree | lockQueued | unlockToWriter | unlockFree | unlockSharedToWriter
  | unlockSharedKept =>
    apply h.unaffected
    · rfl
    · simp [readsGranted]
    · simp [readsRequested]
  | sharedFree =>
    apply h.ask (r := s.requests)
    · simp [readsRequested]
    · exact List.subset_append_left _ _
    · simp [readsGranted]
  | sharedQueued =>
    apply h.ask (r := s.requests)
    · simp [readsRequested]
    · exact .refl _
    · simp [readsGranted]
  | unlockToReader hr hu hq =>
    apply h.wake hq
    · rfl
    · simp [readsGranted]
    · simp [readsRequested]
  | wakeReader hw hq =>
    apply h.wake hq
    · rfl
    · simp [readsGranted]
    · simp [readsRequested]
  | wakeDone => exact h.unaffected rfl rfl rfl

theorem readsRequested_step (hs : s.step a = some t) : t.readsRequested = s.readsRequested ∨
    a = .lockShared ∧ t.readsRequested = s.readsRequested ++ [s.requests] := by
  cases step_section hs with
  | sharedFree | sharedQueued =>
    apply Or.inr
    simp [readsRequested]
  | wakeDone => exact .inl rfl
  | _ =>
    apply Or.inl
    simp [readsRequested]

theorem section_of_readsRequested (hr : exec step {} acts = some t)
    (hm : r ∈ t.readsRequested) :
    ∃ as bs s, acts = as ++ .lockShared :: bs ∧ exec step {} as = some s ∧ s.requests = r := by
  induction acts using List.reverseRecOn generalizing t with
  | nil =>
    cases hr
    cases hm
  | append_singleton acts a ih =>
    rw [exec_concat] at hr
    obtain ⟨u, hu, ha⟩ := Option.bind_eq_some_iff.1 hr
    have earlier (hm : r ∈ u.readsRequested) : ∃ as bs s, acts ++ [a] = as ++ .lockShared :: bs ∧
        exec step {} as = some s ∧ s.requests = r := by
      obtain ⟨as, bs, s, rfl, hs, hn⟩ := ih hu hm
      exact ⟨as, bs ++ [a], s, List.append_assoc .., hs, hn⟩
    obtain he | ⟨rfl, he⟩ := readsRequested_step ha
    · exact earlier (he ▸ hm)
    · rw [he, List.mem_append, List.mem_singleton] at hm
      obtain hm | rfl := hm
      · exact earlier hm
      · exact ⟨acts, [], u, rfl, hu, rfl⟩

theorem writesRequested_step (hs : s.step a = some t) :
    s.writesRequested ⊆ t.writesRequested := by
  cases step_section hs with
  | wakeDone => exact .refl _
  | _ => simp [writesRequested]

theorem uniqueWaiters_step (hs : s.step a = some t) : s.requests ≤ t.requests ∧
    ∀ w ∈ t.mutex.uniqueWaiters, w ∈ s.mutex.uniqueWaiters ∨ s.requests ≤ w := by
  cases step_section hs with
  | lockQueued =>
    refine ⟨Nat.le_succ _, fun w hw => ?_⟩
    obtain hw | hw := List.mem_append.1 hw
    · exact .inl hw
    · exact .inr (List.mem_singleton.1 hw).ge
  | lockFree | sharedFree | sharedQueued => exact ⟨Nat.le_succ _, fun _ => .inl⟩
  | unlockToWriter hr hu | unlockSharedToWriter hr hz hu =>
    refine ⟨le_rfl, fun w hw => ?_⟩
    rw [hu]
    exact .inl (List.mem_cons_of_mem _ hw)
  | _ => exact ⟨le_rfl, fun _ => .inl⟩

theorem lockShared_step (hs : s.step .lockShared = some t) :
    t.mutex.uniqueWaiters = s.mutex.uniqueWaiters ∧ t.requests = s.requests + 1 := by
  cases step_section hs with
  | sharedFree | sharedQueued => exact ⟨rfl, rfl⟩

theorem uniqueWaiters_since (hr : exec step s acts = some t) (hw : w ∈ t.mutex.uniqueWaiters)
    (hn : w < s.requests) : w ∈ s.mutex.uniqueWaiters := by
  have hi := exec_invariant (I := fun u => s.requests ≤ u.requests ∧
      ∀ w ∈ u.mutex.uniqueWaiters, w ∈ s.mutex.uniqueWaiters ∨ s.requests ≤ w) ?_
    ⟨le_rfl, fun _ => .inl⟩ hr
  · exact (hi.2 w hw).resolve_right (Nat.not_le.2 hn)
  · intro u a v hu hs
    obtain ⟨hle, hm⟩ := uniqueWaiters_step hs
    refine ⟨hu.1.trans hle, fun w hw => ?_⟩
    obtain hw | hw := hm w hw
    · exact hu.2 w hw
    · exact .inr (hu.1.trans hw)

/-- Every reader granted so far asked before each writer that still waits. -/
def ReadersAskedFirst (s : LockSystem) : Prop :=
  ∀ w ∈ s.mutex.uniqueWaiters, ∀ r ∈ s.readsGranted, r < w

theorem ReadersAskedFirst.fewer (h : ReadersAskedFirst s)
    (hu : t.mutex.uniqueWaiters ⊆ s.mutex.uniqueWaiters)
    (hg : t.readsGranted = s.readsGranted) : ReadersAskedFirst t := by
  intro w hw r hr
  rw [hg] at hr
  exact h w (hu hw) r hr

theorem readersAskedFirst_of_nil (hu : s.mutex.uniqueWaiters = []) : ReadersAskedFirst s := by
  intro w hw
  rw [hu] at hw
  cases hw

theorem ReadersAskedFirst.step (h : ReadersAskedFirst s) (hq : Queued s) (hl : Ledgered s)
    (hc : WakesEarlierReader s a) (hs : s.step a = some t) : ReadersAskedFirst t := by
  cases step_section hs with
  | lockFree | sharedQueued | unlockFree | unlockSharedKept =>
    apply h.fewer
    · exact .refl _
    · simp [readsGranted]
  | lockQueued =>
    intro w hw r hr
    have hr : r ∈ s.readsGranted := by simpa [readsGranted] using hr
    obtain hw | hw := List.mem_append.1 hw
    · exact h w hw r hr
    · rw [List.mem_singleton.1 hw]
      exact hl.asked (granted_of_read hr)
  | sharedFree ha hw =>
    apply readersAskedFirst_of_nil
    exact List.length_eq_zero_iff.1 (hq.writers.symm.trans hw)
  | unlockToWriter hr hu | unlockSharedToWriter hr hz hu =>
    apply h.fewer
    · rw [hu]
      exact List.subset_cons_self _ _
    · simp [readsGranted]
  | unlockToReader hr hu => exact readersAskedFirst_of_nil hu
  | @wakeReader q _ hk hq =>
    intro w hw r hr
    have hr : r ∈ s.readsGranted ++ [q] := by simpa [readsGranted] using hr
    obtain hr | hr := List.mem_append.1 hr
    · exact h w hw r hr
    · rw [List.mem_singleton.1 hr]
      exact hc rfl hk _ (congrArg List.head? hq) w hw
  | wakeDone =>
    apply h.fewer
    · exact .refl _
    · rfl

/-- Where the condition fails, the turn of the loop lets a reader pass a waiting writer. -/
theorem not_readersAskedFirst (hc : ¬ WakesEarlierReader s a) :
    ∃ t, s.step a = some t ∧ ¬ ReadersAskedFirst t := by
  simp only [WakesEarlierReader, not_forall] at hc
  obtain ⟨rfl, hk, q, hq, w, hw, hle⟩ := hc
  obtain ⟨qs, hqs⟩ := List.head?_eq_some_iff.1 hq
  refine ⟨_, step_wake_reader hk hqs, fun hf => hle (hf w hw q ?_)⟩
  simp [readsGranted]

structure Ordered (s : LockSystem) : Prop where
  queued : Queued s
  ledgered : Ledgered s
  inLine : InLine s
  readers : ReadersAsked s

theorem Ordered.step (h : Ordered s) (hs : s.step a = some t) : Ordered t :=
  ⟨h.queued.step hs, h.ledgered.step hs, h.inLine.step hs, h.readers.step hs⟩

theorem ordered_init : Ordered {} :=
  ⟨queued_init, Ledger.balanced_nil, inLine_init, ⟨List.nil_subset _, List.nil_subset _⟩⟩

theorem ordered (hr : exec step {} acts = some t) : Ordered t :=
  exec_invariant (fun _ _ _ h hs => h.step hs) ordered_init hr

/-- A writer found waiting at some point has been granted the mutex since or still waits. -/
theorem granted_or_waiting (hs : exec step {} as = some s) (hw : w ∈ s.mutex.uniqueWaiters)
    (ht : exec step s bs = some t) : w ∈ t.writesGranted ∨ w ∈ t.mutex.uniqueWaiters := by
  have hi := exec_invariant (I := fun u => InLine u ∧ w ∈ u.writesRequested)
    (fun _ _ _ hi ha => ⟨hi.1.step ha, writesRequested_step ha hi.2⟩)
    ⟨(ordered hs).inLine, (ordered hs).inLine.order ▸ List.mem_append_right _ hw⟩ ht
  rw [← List.mem_append, hi.1.order]
  exact hi.2

theorem noReaderPassesWriter_iff (acts : List LockAction) :
    NoReaderPassesWriter acts ↔ Throughout step ReadersAskedFirst {} acts := by
  rw [throughout_iff_reached]
  constructor
  · intro h cs t hp hr w hw r hg
    by_contra hle
    obtain ⟨as, bs, s, rfl, hs, rfl⟩ :=
      section_of_readsRequested hr ((ordered hr).readers.granted hg)
    have hlater := hr
    rw [exec_append, hs, Option.bind_some] at hlater
    obtain ⟨u, hu, ht⟩ := exec_cons_some.1 hlater
    obtain ⟨hq, hn⟩ := lockShared_step hu
    have hws : w ∈ s.mutex.uniqueWaiters :=
      hq ▸ uniqueWaiters_since ht hw (hn ▸ Nat.lt_succ_of_le (Nat.not_lt.1 hle))
    have hwg := h as bs s t w hp hs hws hr hg
    exact (ordered hr).ledgered.not_granted (List.mem_append_left _ hw) (granted_of_write hwg)
  · intro h as bs s t w hp hs hw ht hg
    have hlater := ht
    rw [exec_append, hs, Option.bind_some] at hlater
    apply (granted_or_waiting hs hw hlater).resolve_right
    intro hwt
    have hlt := h _ t hp ht w hwt _ hg
    exact Nat.lt_asymm hlt ((ordered hs).ledgered.numbered (List.mem_append_left _ hw))

/-- Waiting writers go before later readers exactly in the runs in which every reader that the
wake-up loop finds had asked before the writers that are waiting. -/
theorem writers_before_readers_iff (acts : List LockAction) :
    NoReaderPassesWriter acts ↔ AllSteps step WakesEarlierReader {} acts := by
  rw [noReaderPassesWriter_iff]
  exact throughout_iff_allSteps (I := fun s => Ordered s ∧ ReadersAskedFirst s)
    (fun _ _ _ h hc hs => ⟨h.1.step hs, h.2.step h.1.queued h.1.ledgered hc hs⟩)
    (fun _ h => h.2) (fun _ _ _ hc => not_readersAskedFirst hc)
    ⟨ordered_init, readersAskedFirst_of_nil rfl⟩

/-- A writer and then a reader ask while the loop wakes the first of two readers: the loop goes
on to the last one. -/
theorem writers_before_readers_fails : ¬ ∀ acts, NoReaderPassesWriter acts := by
  intro h
  have hp := h [.lock, .lockShared, .lockShared, .unlock 0, .lock, .lockShared, .wake, .wake]
    [.lock, .lockShared, .lockShared, .unlock 0, .lock] [.wake, .wake] _ _ 3 (List.prefix_refl _)
    rfl (by decide) rfl
  exact absurd hp (by decide)

end LockSystem
end Noctua
