import Noctua.Locked.Line
import Noctua.Topic.Trace

namespace Noctua
open Transition Attendance
set_option autoImplicit true

namespace LockedTopic
variable {t u : LockedTopic} {c d : Call} {j k : Tickets} {p : UInt16} {l m : Lock} {i : Nat}
  {served queue users : List Nat} {hash : Request → Nat}

theorem used_leaves (h : c.used l = true) : c.leaves = some l := by
  unfold Call.used at h
  split at h
  case h_1 hpc => rw [Call.leaves, hpc]
  case h_2 hpc => rw [Call.leaves, hpc, of_decide_eq_true h]
  case h_3 => cases h

theorem leaves_used (h : c.leaves = some l) (hl : l.single = true) : c.used l = true := by
  rw [Call.leaves] at h
  split at h <;> cases h
  case h_1 => cases hl
  case h_2 hpc => simp [Call.used, hpc]
  case h_3 hpc => simp [Call.used, hpc]

theorem not_used (h : c.leaves ≠ some l) : c.used l = false := by
  rw [← Bool.not_eq_true]
  exact fun hu => h (used_leaves hu)

theorem entered_used (h : c.entered = some pc) : { c with pc := pc }.used l = false := by
  rw [Call.entered] at h
  split at h <;> cases h <;> exact not_used (by simp [Call.leaves])

theorem left_used (h : c.leaves = some m) (hn : t.topic.next i c = some (pc, e)) :
    { c with pc := pc }.used l = false := by
  apply not_used
  rw [Call.leaves] at h
  split at h <;> cases h <;> cases Topic.next_cases hn <;> simp_all [Call.leaves]

theorem worked_used (h : c.uses = some l) (hn : t.topic.Next i c pc e) :
    { c with pc := pc }.used l = true := by
  rw [Call.uses] at h
  split at h <;> cases h <;> cases hn <;> simp_all [Call.used]

theorem worked_wall (h : c.uses ≠ some .wall) (hn : t.topic.Next i c pc e) :
    { c with pc := pc }.used .wall = false := by
  cases hn with
  | store hpc | failStore hpc =>
    rw [Call.uses, hpc] at h
    exact (h rfl).elim
  | _ => rfl

theorem uses_stage (h : c.uses = some l) : c.stage l = some .holds := by
  rw [Call.uses] at h
  split at h <;> cases h <;> simp [Call.stage, Pc.stage, Pc.wallStage, *]

theorem uses_awaits (h : c.awaits = some m) : c.uses = none := by
  rw [Call.awaits] at h
  split at h <;> cases h <;> simp [Call.uses, *]

theorem uses_leaves (h : c.leaves = some m) : c.uses = none := by
  rw [Call.leaves] at h
  split at h <;> cases h <;> simp [Call.uses, *]

/-- What a step keeps of the line of a lock. -/
structure InTurn (l : Lock) (t : LockedTopic) (asked users : List Nat) : Prop where
  attending : Attending t
  sound : Sound t
  guarded : Guarded l t
  turns : ∃ served queue, asked = served ++ queue ∧ Turns l t served queue users

theorem Guarded.one (h : Guarded l t) (hv : Sound t) (hl : l.single = true) :
    (t.grants l).length ≤ 1 := by
  cases l with
  | wall => exact hv.ordered.fifoLock.exclusive
  | partition p mode =>
    cases mode with
    | read => cases hl
    | write => exact h.exclusive.mutualExclusion.1

theorem Guarded.line_of_grant (h : Guarded l t) (hv : Sound t) (hl : l.single = true)
    (hr : r ∈ t.grants l) : t.line l = r :: t.waiters l := by
  obtain ⟨x, hx⟩ := List.length_eq_one_iff.1
    (Nat.le_antisymm (h.one hv hl) (List.length_pos_of_mem hr))
  rw [hx] at hr
  rw [line, hx, List.mem_singleton.1 hr]
  rfl

theorem Guarded.step (h : Guarded l t) (hw : l = .wall ∨ WakesSafely t a)
    (ht : t.step hash a = some u) : Guarded l u := by
  obtain hl | hx := h
  · exact .inl hl
  · exact hw.imp id fun hw => hx.step hw ht

theorem asks_of (hc : t.topic.calls[i]? = some c) (ha : c.awaits = some m) :
    asks l t (.request i) = if m = l then [i] else [] := by
  simp only [asks, hc, Option.bind_some, ha, Option.some.injEq]

theorem uses_of (hc : t.topic.calls[i]? = some c)
    (ha : a = .advance i ∨ ∃ kept, a = .failStore i kept) :
    uses l t a = if c.uses = some l then [i] else [] := by
  obtain rfl | ⟨kept, rfl⟩ := ha <;> simp only [uses, hc, Option.bind_some]

theorem asks_advance (ha : a = .advance i ∨ ∃ kept, a = .failStore i kept) :
    asks l t a = [] := by
  obtain rfl | ⟨kept, rfl⟩ := ha <;> rfl

section
variable (ha : Attending t) (hv : Sound t) (hg : Guarded l t) (hl : l.single = true)
  (h : Turns l t served queue users)
include ha h

theorem Turns.invoked (hs : t.topic.step hash (.invoke client op) = some v) :
    Turns l { t with topic := v, tickets := t.tickets ++ [{}] } served queue users := by
  obtain ⟨-, rfl⟩ := Topic.invoke_cases hs
  generalize op.partitionIdx hash t.topic.storage.length = p
  have hsame (n) (s) (r) (hn : t.view l n = some (s, r)) :
      usedBy { t with topic := t.topic.invoked client op p, tickets := t.tickets ++ [{}] } l n =
        t.usedBy l n := by
    obtain ⟨c, -, hc, -⟩ := view_eq_some.1 hn
    rw [usedBy_of hc]
    exact usedBy_of (Topic.calls_invoked.2 (.inl hc))
  have hline : LockedTopic.line { t with
      topic := t.topic.invoked client op p
      tickets := t.tickets ++ [{}] } l = t.line l := rfl
  apply h.keep hline
  · intro n s r hn
    rw [ha.view_invoked]
    exact ⟨s, hn⟩
  · intro n s r hn hu
    rw [hsame n s r hn, hu]
  · exact fun _ n s r hn => hsame n s r hn

theorem Turns.entered (hc : t.topic.calls[i]? = some c) (hk : t.tickets[i]? = some k)
    (hm : c.awaits = some m) (hr : k.of m = some r) (he : c.entered = some pc) :
    Turns l { t with topic := t.topic.advanced i c pc .none } served queue users := by
  have hnot : c.used l = false := not_used (by simp [awaits_leaves hm])
  apply h.moved hc hk (moved_advanced hk c pc .none) rfl
  · intro s x hx
    by_cases hne : l = m
    · subst hne
      obtain ⟨-, hx⟩ := Call.entry_eq_some.1 hx
      exact ⟨.holds, Call.entry_eq_some.2 ⟨Call.entered_stage hm he, hx⟩⟩
    · rw [Call.entry_enter (ha.fits i c k hc hk) hm he hne]
      exact ⟨s, hx⟩
  · rw [hnot]
    exact nofun
  · intro _
    rw [hnot, entered_used he]

include hv hg hl

theorem Turns.requested (hc : t.topic.calls[i]? = some c) (hk : t.tickets[i]? = some k)
    (hm : c.awaits = some m) (hn : k.of m = none) (hu : t.lock m = some u) :
    Turns l (u.setTickets i (k.set m (some (t.ticket m)))) served
      (queue ++ asks l t (.request i)) users := by
  have hmoved := moved_request hc hu (k.set m (some (t.ticket m)))
  have hs := Call.awaits_stage hm
  have hnot : c.used l = false := not_used (by simp [awaits_leaves hm])
  rw [asks_of hc hm]
  split
  · subst m
    have hline := line_lock hv hg hl (ha.inRange hc hs) hu
    have hentry : c.entry (k.set l (some (t.ticket l))) l = some (.waits, t.ticket l) := by
      apply Call.entry_eq_some.2 ⟨hs, ?_⟩
      cases l <;> rfl
    exact h.ask hc hk hmoved hline (Call.entry_of_ticket hn) hentry hnot
  · rename_i hne
    rw [List.append_nil]
    have hline := line_lock_other hu (Ne.symm hne)
    apply h.moved hc hk hmoved hline
    · intro s r he
      rw [Call.entry_set hs (Ne.symm hne)]
      exact ⟨s, he⟩
    · exact id
    · exact fun _ => rfl

theorem Turns.left (hc : t.topic.calls[i]? = some c) (hk : t.tickets[i]? = some k)
    (hm : c.leaves = some m) (hr : k.of m = some r) (hu : t.unlock r m = some u)
    (hn : t.topic.next i c = some (pc, e)) :
    ∃ served' queue', served ++ queue = served' ++ queue' ∧
      Turns l { u.setTickets i (k.set m none) with topic := t.topic.advanced i c pc e } served'
        queue' users := by
  have hmoved := moved_leave (i := i) hu c (k.set m none) pc e
  have hs := Call.leaves_stage hm
  by_cases hne : l = m
  · subst hne
    have hused := leaves_used hm hl
    have hline := line_unlock hv hg hl (ha.inRange hc hs) hu
    have hview : t.view l i = some (.holds, r) := by
      rw [view_of hc hk, Call.entry_eq_some.2 ⟨hs, hr⟩]
    have hfresh : r ∉ u.line l := by
      intro hr
      have hd := (unlock_departure hv (ha.inRange hc hs) hu).members r
      exact (hd.1 (List.mem_append.1 hr).symm).1 rfl
    obtain ⟨rest, rfl, hrest⟩ := h.leave hc hk hmoved ha (hg.one hv hl) hline hfresh hview hused
    exact ⟨served ++ [i], rest, by rw [List.append_assoc]; rfl, hrest⟩
  · refine ⟨served, queue, rfl, ?_⟩
    have hnot : c.used l = false := not_used (by simp [hm, Ne.symm hne])
    have hline := line_unlock_other hg hl hu hne
    apply h.moved hc hk hmoved hline
    · intro s x hx
      rw [Call.entry_leave hm hn, if_neg hne]
      exact ⟨s, hx⟩
    · rw [hnot]
      exact nofun
    · intro _
      rw [hnot, left_used hm hn]

theorem Turns.worked (hc : t.topic.calls[i]? = some c) (hk : t.tickets[i]? = some k)
    (hw : c.awaits = none) (hm : c.leaves = none) (hn : t.topic.Next i c pc e) :
    Turns l { t with topic := t.topic.advanced i c pc e } served queue
      (users ++ if c.uses = some l then [i] else []) := by
  have hmoved := moved_advanced hk c pc e
  have hnot : c.used l = false := not_used (by simp [hm])
  have hentry := Call.entry_work (ha.fits i c k hc hk) hw hm hn l
  split
  · rename_i hu
    obtain ⟨r, hview, hr⟩ := ha.holder hc (uses_stage hu)
    exact h.use hc hk hmoved ha (hg.line_of_grant hv hl hr) rfl hview hentry hnot
      (worked_used hu hn)
  · rename_i hu
    rw [List.append_nil]
    apply h.moved hc hk hmoved rfl
    · intro s x hx
      rw [hentry]
      exact ⟨s, hx⟩
    · rw [hnot]
      exact nofun
    · rintro rfl
      rw [hnot, worked_wall hu hn]

end

theorem InTurn.step (h : InTurn l t asked users) (hl : l.single = true)
    (hw : l = .wall ∨ WakesSafely t a) (ht : t.step hash a = some u) :
    InTurn l u (asked ++ asks l t a) (users ++ uses l t a) := by
  have ha := h.attending
  have hv := h.sound
  have hg := h.guarded
  obtain ⟨served, queue, rfl, hturns⟩ := h.turns
  refine ⟨ha.step hv ht, hv.step ht, hg.step hw ht, ?_⟩
  cases step_locked ht with
  | invoke hs =>
    simp only [asks, uses, List.append_nil]
    exact ⟨served, queue, rfl, hturns.invoked ha hs⟩
  | request hc hk hm hn hu =>
    simp only [uses, List.append_nil]
    exact ⟨served, _, List.append_assoc .., hturns.requested ha hv hg hl hc hk hm hn hu⟩
  | enter hc hk hm hr hgr he =>
    rw [asks_advance (.inl rfl), uses_of hc (.inl rfl), uses_awaits hm]
    simp only [reduceCtorEq, if_false, List.append_nil]
    exact ⟨served, queue, rfl, hturns.entered ha hc hk hm hr he⟩
  | leave hc hk hm hr hu hn =>
    rw [asks_advance (.inl rfl), uses_of hc (.inl rfl), uses_leaves hm]
    simp only [reduceCtorEq, if_false, List.append_nil]
    exact hturns.left ha hv hg hl hc hk hm hr hu hn
  | work hi hs hc hw hm hn =>
    obtain ⟨k, hk⟩ := ha.ticket hc
    rw [asks_advance hi, uses_of hc hi, List.append_nil]
    exact ⟨served, queue, rfl, hturns.worked ha hv hg hl hc hk hw hm hn⟩
  | wake hm =>
    simp only [asks, uses, List.append_nil]
    refine ⟨served, queue, rfl, hturns.keep (line_wake hg hl hm) ?_ ?_ ?_⟩
    · exact fun n s r hn => ⟨s, hn⟩
    · exact fun n s r _ => id
    · exact fun _ n s r _ => rfl

theorem inTurn_init (n : Nat) (l : Lock) : InTurn l (init n) [] [] where
  attending := attending_init n
  sound := sound_init n
  guarded := .inr (orderly_init n).excludes
  turns := by
    have hline : (init n).line l = [] := by
      cases l with
      | wall => rfl
      | partition p mode =>
        rw [line, grants, waiters, init_mutex]
        cases mode <;> rfl
    refine ⟨[], [], rfl, ?_, .refl _, fun _ => rfl⟩
    rw [hline]
    exact .nil

theorem inTurn_of_exec (hl : l.single = true) (h : exec (step hash) (init n) acts = some t)
    (hw : AllSteps (step hash) (fun s a => l = .wall ∨ WakesSafely s a) (init n) acts) :
    InTurn l t (collect (step hash) (asks l) (init n) acts)
      (collect (step hash) (uses l) (init n) acts) := by
  have keep (s a u es ds) (hi : InTurn l s es ds) (hw : l = .wall ∨ WakesSafely s a)
      (hs : step hash s a = some u) : InTurn l u (es ++ asks l s a) (ds ++ uses l s a) :=
    hi.step hl hw hs
  exact collect_invariant₂ (asks l) (uses l) keep (inTurn_init n l) hw h

/-- Records are written to the file in the order in which the calls asked for `wall_mutex_`. -/
theorem records_in_turn (h : exec (step hash) (init n) acts = some t) :
    collect (step hash) (uses .wall) (init n) acts <+:
      collect (step hash) (asks .wall) (init n) acts := by
  have hw : AllSteps (step hash) (fun s a => Lock.wall = .wall ∨ WakesSafely s a) (init n) acts :=
    AllSteps.imp (I := fun _ => True) (C := fun _ _ => True) (fun _ _ _ _ _ _ => trivial)
      (fun _ _ _ _ => .inl rfl) trivial (allSteps_true _ acts)
  obtain ⟨served, queue, hasked, hturns⟩ := (inTurn_of_exec rfl h hw).turns
  rw [hturns.exact rfl, hasked, List.prefix_append_right_inj]
  cases queue with
  | nil => exact List.nil_prefix
  | cons i queue =>
    rw [taken]
    split
    · exact ⟨queue, rfl⟩
    · exact List.nil_prefix

theorem taken_sublist (t : LockedTopic) (l : Lock) (queue : List Nat) :
    (t.taken l queue).Sublist queue := by
  cases queue with
  | nil => exact .refl _
  | cons i queue =>
    rw [taken]
    split
    · exact List.Sublist.cons_cons i (List.nil_sublist queue)
    · exact List.nil_sublist _

/-- A partition changes in the order in which the calls asked for its write lock. -/
theorem changes_in_turn (h : exec (step hash) (init n) acts = some t)
    (hw : AllSteps (step hash) WakesSafely (init n) acts) (p : UInt16) :
    (collect (step hash) (uses (.partition p .write)) (init n) acts).Sublist
      (collect (step hash) (asks (.partition p .write)) (init n) acts) := by
  have hw' : AllSteps (step hash) (fun s a => Lock.partition p .write = .wall ∨ WakesSafely s a)
      (init n) acts :=
    AllSteps.imp (I := fun _ => True) (C := WakesSafely) (fun _ _ _ _ _ _ => trivial)
      (fun _ _ _ hw => .inr hw) trivial hw
  obtain ⟨served, queue, hasked, hturns⟩ := (inTurn_of_exec rfl h hw').turns
  rw [hasked]
  exact hturns.used.trans ((taken_sublist t _ queue).append_left served)

theorem appends_used (hn : t.topic.Next i c pc e) (p : UInt16) :
    ((if c.partition = p then e.appends else []).map Message.origin).Sublist
      (if c.uses = some (.partition p .write) then [i] else []) := by
  cases hn with
  | push hpc =>
    have hu : c.uses = some (.partition c.partition .write) := by rw [Call.uses, hpc]
    rw [hu]
    by_cases hp : c.partition = p
    · rw [if_pos hp, if_pos (by rw [hp])]
      exact .refl _
    · rw [if_neg hp]
      exact List.nil_sublist _
  | _ =>
    simp only [Effect.appends, ite_self]
    exact List.nil_sublist _

theorem pushed_step (ht : t.step hash a = some u) (p : UInt16) :
    ∃ ms, u.topic.pushed p = t.topic.pushed p ++ ms ∧
      (ms.map Message.origin).Sublist (uses (.partition p .write) t a) := by
  cases step_locked ht with
  | invoke hs =>
    obtain ⟨-, rfl⟩ := Topic.invoke_cases hs
    exact ⟨[], by simp, List.nil_sublist _⟩
  | @request i c k l u hc hk hl hn hu =>
    have he : u.topic = t.topic := (frame_lock hu).1
    refine ⟨[], ?_, List.nil_sublist _⟩
    rw [List.append_nil, ← he]
    rfl
  | wake => exact ⟨[], (List.append_nil _).symm, List.nil_sublist _⟩
  | @enter i c k l r pc hc =>
    refine ⟨[], ?_, List.nil_sublist _⟩
    have hp := Topic.pushed_advanced t.topic i c pc .none p
    simpa only [Effect.appends, ite_self] using hp
  | leave hc hk hl hr hu hn =>
    rw [uses_of hc (.inl rfl)]
    exact ⟨_, Topic.pushed_advanced .., appends_used (Topic.next_cases hn) p⟩
  | work hi hs hc hw hm hn =>
    rw [uses_of hc hi]
    exact ⟨_, Topic.pushed_advanced .., appends_used hn p⟩

theorem pushed_used (h : exec (step hash) (init n) acts = some t) (p : UInt16) :
    ((t.topic.pushed p).map Message.origin).Sublist
      (collect (step hash) (uses (.partition p .write)) (init n) acts) := by
  have keep (s a u es)
      (hi : ((s.topic.pushed p).map Message.origin).Sublist es) (hs : step hash s a = some u) :
      ((u.topic.pushed p).map Message.origin).Sublist (es ++ uses (.partition p .write) s a) := by
    obtain ⟨ms, hms, hsub⟩ := pushed_step hs p
    rw [hms, List.map_append]
    exact hi.append hsub
  have start : (((init n).topic.pushed p).map Message.origin).Sublist [] := List.nil_sublist _
  exact collect_invariant (J := fun t es => ((t.topic.pushed p).map Message.origin).Sublist es)
    _ keep start h

/-- The messages of a partition stand in the order in which their calls asked for its lock. -/
theorem pushes_in_turn (h : exec (step hash) (init n) acts = some t)
    (hw : AllSteps (step hash) WakesSafely (init n) acts) (p : UInt16) :
    ((t.topic.pushed p).map Message.origin).Sublist
      (collect (step hash) (asks (.partition p .write)) (init n) acts) :=
  (pushed_used h p).trans (changes_in_turn h hw p)

/-- Two pushes race for an empty partition, and the one that asks first comes first. -/
def racing : List LockedAction :=
  [.invoke 0 (.push (.ofByte 97) (.replicate 5 0)), .invoke 1 (.push (.ofByte 98) (.replicate 5 0)),
    .request 1, .request 0, .advance 1, .request 1, .advance 1, .advance 1, .advance 1, .advance 1,
    .advance 1, .advance 0, .request 0, .advance 0, .advance 0, .advance 0, .advance 0]

theorem racing_runs : (exec (step fun _ => 0) (init 1) racing).map
    (fun t => (t.topic.pushed 0).map Message.origin) = some [1, 0] := by decide +kernel

theorem records_in_turn_racing :
    collect (step fun _ => 0) (uses .wall) (init 1) racing = [1, 0] ∧
    collect (step fun _ => 0) (uses .wall) (init 1) racing <+:
      collect (step fun _ => 0) (asks .wall) (init 1) racing := by
  obtain ⟨t, ht, -⟩ := Option.map_eq_some_iff.1 racing_runs
  exact ⟨by decide +kernel, records_in_turn ht⟩

theorem pushes_in_turn_racing :
    [1, 0].Sublist (collect (step fun _ => 0) (asks (.partition 0 .write)) (init 1) racing) := by
  obtain ⟨t, ht, hp⟩ := Option.map_eq_some_iff.1 racing_runs
  have h := pushes_in_turn ht (by decide +kernel) 0
  rwa [hp] at h

end LockedTopic
end Noctua
