import Noctua.Topic.Trace
import Noctua.Wall.Replay

namespace Noctua
open Transition Wall
set_option autoImplicit true

/-- The record of the call is in the wall and its change is still to come. -/
def Pc.recorded : Pc → Bool
  | .releaseWall | .mutate => true
  | _ => false

theorem Pc.holdsWrite_of_recorded {pc : Pc} (h : pc.recorded = true) : pc.holdsWrite = true := by
  cases pc <;> first | rfl | cases h

theorem Operation.start_recorded (op : Operation) : op.start.recorded = false := by
  cases op <;> rfl

def Effect.record : Effect → Option WallData
  | .store d => some d
  | _ => Option.none

theorem Call.wallData_identifier {c : Call} (h : c.wallData = some d) :
    d.identifier = c.partition := by
  rw [wallData] at h
  split at h <;> cases h <;> rfl

namespace Topic
variable {t u : Topic} {c d : Call} {p q : UInt16} {e : Effect} {hash : Request → Nat}

def log (t : Topic) : List WallData := t.trace.filterMap fun x => x.2.record

def records (t : Topic) (p : UInt16) : List WallData := t.log.filter fun d => d.identifier = p

theorem emitted_record (hf : t.wallWriter.failed = false) :
    (t.emitted i c e).filterMap TraceEvent.record = e.record.toList := by
  cases e with
  | store d => rw [emitted, hf]; rfl
  | pop => simp only [emitted]; cases t.queue c.partition <;> rfl
  | _ => rfl

theorem advanced_log (hf : t.wallWriter.failed = false) :
    (t.advanced i c pc e).log = t.log ++ e.record.toList := by
  rw [log, advanced_trace, List.filterMap_append, List.filterMap_map]
  exact congrArg _ (emitted_record hf)

@[simp] theorem invoked_log (t : Topic) (client : Nat) (op : Operation) (p : UInt16) :
    (t.invoked client op p).log = t.log := by
  change List.filterMap _ (t.trace ++ [(p, TraceEvent.invoke t.calls.length op)]) = _
  rw [List.filterMap_append]
  exact List.append_nil _

@[simp] theorem invoked_records (t : Topic) (client : Nat) (op : Operation) (p q : UInt16) :
    (t.invoked client op p).records q = t.records q := by
  rw [records, invoked_log, records]

theorem advanced_wallWriter (t : Topic) (i : Nat) (c : Call) (pc : Pc) (e : Effect) :
    (t.advanced i c pc e).wallWriter =
      match e with
      | .store d => t.wallWriter.store d.bytes
      | .failStore d kept => t.wallWriter.storeFails d.bytes kept
      | _ => t.wallWriter := by
  change (t.perform i c e).wallWriter = _
  cases e with
  | store d => simp only [perform]; split <;> rfl
  | pop => simp only [perform]; split <;> rfl
  | _ => rfl

theorem advanced_file (hf : (t.advanced i c pc e).wallWriter.failed = false) :
    t.wallWriter.failed = false ∧ (∀ d kept, e ≠ .failStore d kept) ∧
      (t.advanced i c pc e).wallWriter.file =
        t.wallWriter.file ++ (e.record.toList.map WallData.bytes).flatten := by
  rw [advanced_wallWriter] at hf ⊢
  cases e with
  | store d =>
    have hg : t.wallWriter.failed = false := (WallWriter.store_failed _ _).symm.trans hf
    refine ⟨hg, fun _ _ => Effect.noConfusion, ?_⟩
    dsimp only
    rw [WallWriter.store_of_good _ _ hg]
    simp only [Effect.record, Option.toList_some, List.map_cons, List.map_nil, List.flatten_cons,
      List.flatten_nil, List.append_nil]
  | failStore d kept =>
    have hb : (t.wallWriter.storeFails d.bytes kept).failed = true :=
      WallWriter.storeFails_failed ..
    exact absurd hf (hb ▸ Bool.noConfusion)
  | _ => exact ⟨hf, fun _ _ => Effect.noConfusion, (List.append_nil t.wallWriter.file).symm⟩

theorem Next.record {x : WallData} (hn : Next t i c pc e) (h : e.record = some x) :
    c.wallData = some x := by
  cases hn with
  | store hpc hd => exact hd.trans h
  | _ => cases h

theorem Next.record_pc {x : WallData} (hn : Next t i c pc e) (h : e.record = some x) :
    c.pc = .store := by
  cases hn with
  | store hpc => exact hpc
  | _ => cases h

theorem advanced_records (hf : t.wallWriter.failed = false) (hn : Next t i c pc e) :
    (t.advanced i c pc e).records p =
      t.records p ++ if c.partition = p then e.record.toList else [] := by
  rw [records, advanced_log hf, List.filter_append, records]
  cases he : e.record with
  | none => split <;> rfl
  | some d =>
    rw [Option.toList_some, List.filter_singleton, Call.wallData_identifier (hn.record he)]
    split <;> simp_all

/-- Each step leaves the wall and the queue alone, stores the record of its call, or makes the
change that the record stands for. -/
theorem Next.wall_cases (hn : Next t i c pc e) (hs : c.Sound (t.queue c.partition))
    (hk : ∀ d kept, e ≠ .failStore d kept) :
    (e.record = none ∧ (∀ q, e.onQueue q = q) ∧ pc.recorded = c.pc.recorded) ∨
    (∃ d, e.record = some d ∧ c.wallData = some d ∧ (∀ q, e.onQueue q = q) ∧
      c.pc = .store ∧ pc.recorded = true) ∨
    (e.record = none ∧ c.pc = .mutate ∧ pc.recorded = false ∧ ∀ d, c.wallData = some d →
      replayStep (t.texts c.partition) d =
        some ((e.onQueue (t.queue c.partition)).map Message.text)) := by
  obtain ⟨client, op, p, pc₀⟩ := c
  cases hn with
  | store hpc hd => exact .inr (.inl ⟨_, rfl, hd, fun _ => rfl, hpc, rfl⟩)
  | failStore hpc hd kept => exact (hk _ _ rfl).elim
  | push hpc hop =>
    cases hpc
    cases hop
    refine .inr (.inr ⟨rfl, rfl, rfl, ?_⟩)
    rintro d ⟨⟩
    rw [replayStep_push rfl, texts, Effect.onQueue, List.map_append]
    rfl
  | pop hpc hop =>
    cases hpc
    cases hop
    refine .inr (.inr ⟨rfl, rfl, rfl, ?_⟩)
    rename_i r padding
    rintro d ⟨⟩
    have hh : (t.texts p).head? = some r.message.text := List.head?_map.trans hs
    rw [Effect.onQueue, List.map_tail]
    exact replayStep_remove rfl hh
  | acquireRead hpc | readFront hpc | rejectFirst hpc | passFirst hpc | answerRead hpc
  | releaseRead hpc | acquireRemove hpc | acquirePush hpc | rejectSecond hpc | passSecond hpc
  | acquireWall hpc | releaseWall hpc | answerWrite hpc =>
    cases hpc
    exact .inl ⟨rfl, fun _ => rfl, rfl⟩

/-- The log and the partitions, seen from the calls in between. -/
structure Logged (t : Topic) : Prop where
  file : t.wallWriter.file = (t.log.map WallData.bytes).flatten
  settled : ∀ p, (∀ (i : Nat) (c : Call), t.calls[i]? = some c → c.partition = p →
    c.pc.recorded = false) → replay (t.records p) = some (t.texts p)
  ahead : ∀ (i : Nat) (c : Call), t.calls[i]? = some c → c.pc.recorded = true →
    ∃ ds d, c.wallData = some d ∧ t.records c.partition = ds ++ [d] ∧
      replay ds = some (t.texts c.partition)
  origin : ∀ d ∈ t.log, ∃ (i : Nat) (c : Call), t.calls[i]? = some c ∧ c.wallData = some d

theorem logged_init (n : Nat) : Logged (init n) where
  file := rfl
  settled := by
    intro p _
    rw [texts, init_queue]
    rfl
  ahead := by
    intro i c hc
    cases hc
  origin := by
    intro d hd
    cases hd

theorem Logged.invoked (h : Logged t) : Logged (t.invoked client op p) where
  file := (invoked_log t client op p).symm ▸ h.file
  settled := by
    intro q hq
    rw [invoked_records]
    exact h.settled q fun i c hc hp => hq i c (calls_invoked.2 (.inl hc)) hp
  ahead := by
    intro i c hc hr
    rcases calls_invoked.1 hc with hc | ⟨rfl, rfl⟩
    · rw [invoked_records]
      exact h.ahead i c hc hr
    · exact absurd hr (op.start_recorded ▸ Bool.false_ne_true)
  origin := by
    intro d hd
    rw [invoked_log] at hd
    obtain ⟨i, c, hc, hcd⟩ := h.origin d hd
    exact ⟨i, c, calls_invoked.2 (.inl hc), hcd⟩

theorem texts_advanced_self (hr : c.partition.toNat < t.storage.length) :
    (t.advanced i c pc e).texts c.partition =
      (e.onQueue (t.queue c.partition)).map Message.text :=
  congrArg (List.map Message.text) (advanced_queue_self hr)

theorem texts_advanced_ne (h : p ≠ c.partition) :
    (t.advanced i c pc e).texts p = t.texts p :=
  congrArg (List.map Message.text) (advanced_queue_ne h)

theorem records_advanced_self (hf : t.wallWriter.failed = false) (hn : Next t i c pc e) :
    (t.advanced i c pc e).records c.partition = t.records c.partition ++ e.record.toList := by
  rw [advanced_records hf hn, if_pos rfl]

theorem records_advanced_ne (hf : t.wallWriter.failed = false) (hn : Next t i c pc e)
    (h : p ≠ c.partition) : (t.advanced i c pc e).records p = t.records p := by
  rw [advanced_records hf hn, if_neg h.symm, List.append_nil]

theorem records_stable {i j : Nat} (hl : LocksExclude t) (hf : t.wallWriter.failed = false)
    (hc : t.calls[i]? = some c) (hn : Next t i c pc e) (hj : j ≠ i)
    (hd : t.calls[j]? = some d) (hw : d.pc.holdsWrite = true) :
    (t.advanced i c pc e).records d.partition = t.records d.partition := by
  by_cases hp : d.partition = c.partition
  · have he : e.record = none := by
      cases he : e.record with
      | none => rfl
      | some x =>
        have hx := (hl j i d c hj hd hc hp hw).1
        rw [hn.record_pc he] at hx
        cases hx
    rw [hp, records_advanced_self hf hn, he, Option.toList_none, List.append_nil]
  · exact records_advanced_ne hf hn hp

theorem Logged.settled_advanced (h : Logged t) (hco : Coherent t) (hc : t.calls[i]? = some c)
    (hn : Next t i c pc e) (hf : (t.advanced i c pc e).wallWriter.failed = false)
    (hp : ∀ (j : Nat) (d : Call), (t.advanced i c pc e).calls[j]? = some d → d.partition = p →
      d.pc.recorded = false) :
    replay ((t.advanced i c pc e).records p) = some ((t.advanced i c pc e).texts p) := by
  obtain ⟨hg, hk, -⟩ := advanced_file hf
  by_cases hpc : p = c.partition
  · subst hpc
    have hown : pc.recorded = false := hp i _ (calls_advanced_self hc) rfl
    rw [records_advanced_self hg hn, texts_advanced_self (hco.inRange i c hc)]
    rcases hn.wall_cases (hco.sound i c hc) hk with
      ⟨he, hq, hrec⟩ | ⟨d, -, -, -, -, hrec⟩ | ⟨he, hm, -, hd⟩
    · rw [he, hq, Option.toList_none, List.append_nil]
      apply h.settled
      intro j d hd hpd
      exact unmarked_before hc hp (fun _ => hrec.symm.trans hown) hd hpd
    · exact absurd (hrec.symm.trans hown) Bool.noConfusion
    · obtain ⟨ds, d, hwd, hds, hrep⟩ := h.ahead i c hc (by rw [hm]; rfl)
      rw [he, hds, Option.toList_none, List.append_nil, replay_concat, hrep]
      exact hd d hwd
  · rw [records_advanced_ne hg hn hpc, texts_advanced_ne hpc]
    apply h.settled
    intro j d hd hpd
    exact unmarked_before hc hp (fun hcp => (hpc hcp.symm).elim) hd hpd

theorem Logged.ahead_self (h : Logged t) (hco : Coherent t) (hc : t.calls[i]? = some c)
    (hn : Next t i c pc e) (hf : (t.advanced i c pc e).wallWriter.failed = false)
    (hrec : pc.recorded = true) :
    ∃ ds d, c.wallData = some d ∧ (t.advanced i c pc e).records c.partition = ds ++ [d] ∧
      replay ds = some ((t.advanced i c pc e).texts c.partition) := by
  obtain ⟨hg, hk, -⟩ := advanced_file hf
  rw [records_advanced_self hg hn, texts_advanced_self (hco.inRange i c hc)]
  rcases hn.wall_cases (hco.sound i c hc) hk with
    ⟨he, hq, heq⟩ | ⟨d, he, hwd, hq, hst, -⟩ | ⟨-, -, hno, -⟩
  · rw [he, hq, Option.toList_none]
    simp only [List.append_nil]
    exact h.ahead i c hc (heq.symm.trans hrec)
  · have hw : c.pc.holdsWrite = true := by
      rw [hst]
      rfl
    have hown : c.pc.recorded = false := by
      rw [hst]
      rfl
    rw [he, hq]
    refine ⟨_, d, hwd, rfl, h.settled _ fun k x hx hpx => ?_⟩
    exact hco.locks.all_unmarked (fun _ => Pc.holdsWrite_of_recorded) hc (.inl hw) hown hx hpx
  · exact absurd (hno.symm.trans hrec) Bool.noConfusion

theorem Logged.advanced (h : Logged t) (hco : Coherent t) (hc : t.calls[i]? = some c)
    (hn : Next t i c pc e) (hf : (t.advanced i c pc e).wallWriter.failed = false) :
    Logged (t.advanced i c pc e) := by
  obtain ⟨hg, -, hfile⟩ := advanced_file hf
  constructor
  case file =>
    rw [hfile, advanced_log hg, List.map_append, List.flatten_append, h.file]
  case settled =>
    intro p hp
    exact h.settled_advanced hco hc hn hf hp
  case ahead =>
    intro j d hd hrd
    rcases (calls_advanced hc).1 hd with ⟨rfl, rfl⟩ | ⟨hj, hd⟩
    · exact h.ahead_self (c := c) hco hc hn hf hrd
    · obtain ⟨ds, x, hx, hds, hrep⟩ := h.ahead j d hd hrd
      have hw := Pc.holdsWrite_of_recorded hrd
      refine ⟨ds, x, hx, (records_stable hco.locks hg hc hn hj hd hw).trans hds, ?_⟩
      have hq := queue_stable hco.locks hc hn (hco.inRange i c hc) hj hd (.inl hw)
      rw [hrep, texts, texts, hq]
  case origin =>
    intro x hx
    rw [advanced_log hg] at hx
    rcases List.mem_append.1 hx with hx | hx
    · obtain ⟨j, d, hd, hdx⟩ := h.origin x hx
      by_cases hj : j = i
      · subst hj
        obtain rfl := Option.some.inj (hc.symm.trans hd)
        exact ⟨j, _, calls_advanced_self hc, hdx⟩
      · exact ⟨j, d, calls_advanced_ne hc hj hd, hdx⟩
    · exact ⟨i, _, calls_advanced_self hc, hn.record (Option.mem_toList.1 hx)⟩

theorem logged_step (hs : t.step hash a = some u)
    (h : Coherent t ∧ (t.wallWriter.failed = false → Logged t)) :
    Coherent u ∧ (u.wallWriter.failed = false → Logged u) := by
  apply step_rule (I := fun t => Coherent t ∧ (t.wallWriter.failed = false → Logged t))
    _ _ t a u h hs
  · intro t client op p h hp
    exact ⟨h.1.invoked hp, fun hf => (h.2 hf).invoked⟩
  · intro t i c pc e h hc hn
    exact ⟨h.1.advanced hc hn, fun hf => (h.2 (advanced_file hf).1).advanced h.1 hc hn hf⟩

theorem logged_of_exec (h : exec (step hash) (init n) acts = some t)
    (hf : t.wallWriter.failed = false) : Logged t :=
  (exec_invariant (fun _ _ _ h hs => logged_step hs h) ⟨coherent_init n, fun _ => logged_init n⟩
    h).2 hf

/-- The replay of the partition's records is ahead of its contents by the record that the call
has stored last. -/
def OneAhead (t : Topic) (c : Call) : Prop :=
  ∃ ds d q, c.wallData = some d ∧ t.records c.partition = ds ++ [d] ∧
    replay ds = some (t.texts c.partition) ∧ replay (t.records c.partition) = some q

structure WallAgrees (t : Topic) : Prop where
  wholeRecords : t.wallWriter.file = (t.log.map WallData.bytes).flatten
  unlocked : ∀ p, t.Readable p → replay (t.records p) = some (t.texts p)
  locked : ∀ c ∈ t.calls, c.pc.holdsWrite = true →
    replay (t.records c.partition) = some (t.texts c.partition) ∨ t.OneAhead c
  recordFirst : ∀ c ∈ t.calls, c.pc = .mutate → t.OneAhead c

theorem replayStep_wallData (hs : c.Sound (t.queue c.partition)) (hr : c.pc.recorded = true)
    {x : WallData} (hx : c.wallData = some x) :
    ∃ q, replayStep (t.texts c.partition) x = some q := by
  obtain ⟨client, op, p, pc⟩ := c
  cases op with
  | push r padding =>
    cases hx
    exact ⟨_, replayStep_push rfl _⟩
  | read => cases hx
  | remove r padding =>
    cases hx
    have hh : headText (t.queue p) = some r.message.text := by
      cases pc <;> first | exact hs | cases hr
    exact ⟨_, replayStep_remove rfl (List.head?_map.trans hh)⟩

theorem Logged.oneAhead {i : Nat} (h : Logged t) (hco : Coherent t) (hc : t.calls[i]? = some c)
    (hr : c.pc.recorded = true) : t.OneAhead c := by
  obtain ⟨ds, x, hx, hds, hrep⟩ := h.ahead i c hc hr
  obtain ⟨q, hq⟩ := replayStep_wallData (hco.sound i c hc) hr hx
  refine ⟨ds, x, q, hx, hds, hrep, ?_⟩
  rw [hds, replay_concat, hrep]
  exact hq

/-- In every state of every run whose stores all succeed, the log and the partitions agree. -/
theorem wall_agrees (h : exec (step hash) (init n) acts = some t)
    (hf : t.wallWriter.failed = false) : WallAgrees t := by
  have hl := logged_of_exec h hf
  have hco := coherent_of_exec h
  constructor
  case wholeRecords => exact hl.file
  case unlocked =>
    intro p hp
    apply hl.settled
    intro i c hc hcp
    cases hr : c.pc.recorded with
    | false => rfl
    | true =>
      have hw := hp c (List.mem_of_getElem? hc) hcp
      exact (Pc.holdsWrite_of_recorded hr).symm.trans hw
  case locked =>
    intro c hmem hw
    obtain ⟨i, hc⟩ := List.getElem?_of_mem hmem
    cases hr : c.pc.recorded with
    | true => exact .inr (hl.oneAhead hco hc hr)
    | false =>
      left
      apply hl.settled
      intro j d hd hp
      exact hco.locks.all_unmarked (fun _ => Pc.holdsWrite_of_recorded) hc (.inl hw) hr hd hp
  case recordFirst =>
    intro c hmem hpc
    obtain ⟨i, hc⟩ := List.getElem?_of_mem hmem
    exact hl.oneAhead hco hc (by rw [hpc]; rfl)

theorem wall_agrees_before_append :
    ∃ t, exec (step fun _ => 0) (init 1)
      [.invoke 0 (.push (.ofByte 98) (.replicate 5 0)), .advance 0, .advance 0,
        .advance 0, .advance 0] = some t ∧ t.log.length = 1 ∧ t.queue 0 = [] ∧ WallAgrees t := by
  have hs : (exec (step fun _ => 0) (init 1)
      [.invoke 0 (.push (.ofByte 98) (.replicate 5 0)), .advance 0, .advance 0,
        .advance 0, .advance 0]).isSome = true := by decide
  have ht := (Option.some_get hs).symm
  exact ⟨_, ht, rfl, rfl, wall_agrees ht rfl⟩

end Topic
end Noctua
