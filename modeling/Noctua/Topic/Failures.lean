import Noctua.Topic.Logged
import Mathlib.Data.List.Induction

namespace Noctua
open Transition Wall
set_option autoImplicit true

/-- The same step of a call, its store made. -/
def TopicAction.intact : TopicAction → TopicAction
  | .invoke client op => .invoke client op
  | .advance i | .failStore i _ => .advance i

def Effect.intact : Effect → Effect
  | .failStore d _ => .store d
  | e => e

namespace Topic
variable {t u : Topic} {c d : Call} {p q : UInt16} {e : Effect} {hash : Request → Nat}

/-- The second topic has made every store that the first one tried. After a failure the file of
the first holds its log and a part of the record that came next. -/
structure Mirrors (t u : Topic) : Prop where
  storage : u.storage = t.storage
  calls : u.calls = t.calls
  stored : u.wallWriter.failed = false
  file : u.wallWriter.file = (u.log.map WallData.bytes).flatten
  same : t.wallWriter.failed = false → u = t
  torn : t.wallWriter.failed = true → ∃ d kept, t.log ++ [d] <+: u.log ∧
    t.wallWriter.file = (t.log.map WallData.bytes).flatten ++ d.bytes.take kept

theorem mirrors_init (n : Nat) : Mirrors (init n) (init n) where
  storage := rfl
  calls := rfl
  stored := rfl
  file := rfl
  same := fun _ => rfl
  torn := by
    intro hf
    cases hf

theorem next_congr (hs : u.storage = t.storage) (hc : u.calls = t.calls) (i : Nat) (c : Call) :
    u.next i c = t.next i c := by
  cases t
  cases u
  cases hs
  cases hc
  rfl

theorem perform_store_storage (t : Topic) (i : Nat) (c : Call) (d : WallData) :
    (t.perform i c (.store d)).storage = t.storage := by
  simp only [perform]
  split <;> rfl

theorem perform_intact_storage (hs : u.storage = t.storage) (i : Nat) (c : Call) (e : Effect) :
    (u.perform i c e.intact).storage = (t.perform i c e).storage := by
  have hq : u.queue c.partition = t.queue c.partition := by rw [queue, queue, hs]
  cases e with
  | none | respond => exact hs
  | store d => exact (perform_store_storage ..).trans (hs.trans (perform_store_storage ..).symm)
  | failStore d kept => exact (perform_store_storage ..).trans hs
  | push m => exact congrArg (·.modify c.partition.toNat (· ++ [m])) hs
  | pop =>
    simp only [Effect.intact, perform, hq]
    split
    · exact hs
    · exact congrArg (·.modify c.partition.toNat List.tail) hs

theorem advanced_log_of_failed (hf : (t.advanced i c pc e).wallWriter.failed = true) :
    (t.advanced i c pc e).log = t.log := by
  have hlog : (t.emitted i c e).filterMap TraceEvent.record = [] := by
    cases e with
    | store d =>
      rw [advanced_wallWriter, WallWriter.store_failed] at hf
      rw [emitted, hf]
      rfl
    | pop => simp only [emitted]; cases t.queue c.partition <;> rfl
    | _ => rfl
  rw [log, advanced_trace, List.filterMap_append, List.filterMap_map]
  exact (congrArg _ hlog).trans (List.append_nil _)

theorem Mirrors.invoked (h : Mirrors t u) (client : Nat) (op : Operation) (p : UInt16) :
    Mirrors (t.invoked client op p) (u.invoked client op p) where
  storage := h.storage
  calls := by
    simp only [Topic.invoked, emit, h.calls]
  stored := h.stored
  file := (invoked_log u client op p).symm ▸ h.file
  same := by
    intro hf
    rw [h.same hf]
  torn := by
    intro hf
    rw [invoked_log, invoked_log]
    exact h.torn hf

theorem Mirrors.torn_advanced (h : Mirrors t u)
    (ht : (t.advanced i c pc e).wallWriter.failed = true) :
    ∃ d kept, (t.advanced i c pc e).log ++ [d] <+: (u.advanced i c pc e.intact).log ∧
      (t.advanced i c pc e).wallWriter.file =
        ((t.advanced i c pc e).log.map WallData.bytes).flatten ++ d.bytes.take kept := by
  rw [advanced_log_of_failed ht, advanced_log h.stored]
  cases hf : t.wallWriter.failed with
  | true =>
    obtain ⟨d, kept, hp, hfile⟩ := h.torn hf
    refine ⟨d, kept, hp.trans (List.prefix_append _ _), ?_⟩
    rw [← hfile, advanced_wallWriter]
    cases e with
    | store d => simp only [WallWriter.store, hf, if_true]
    | failStore d kept => simp only [WallWriter.storeFails, hf, if_true]
    | _ => rfl
  | false =>
    obtain rfl := h.same hf
    rw [advanced_wallWriter] at ht ⊢
    cases e with
    | failStore d kept =>
      refine ⟨d, kept, List.prefix_refl _, ?_⟩
      simp only [WallWriter.storeFails, hf, h.file]
      rfl
    | store d =>
      rw [WallWriter.store_failed, hf] at ht
      cases ht
    | _ => cases hf.symm.trans ht

theorem Mirrors.advanced (h : Mirrors t u) (i : Nat) (c : Call) (pc : Pc) (e : Effect) :
    Mirrors (t.advanced i c pc e) (u.advanced i c pc e.intact) := by
  have stored : (u.advanced i c pc e.intact).wallWriter.failed = false := by
    rw [advanced_wallWriter]
    cases e with
    | store d | failStore d kept => exact (WallWriter.store_failed ..).trans h.stored
    | _ => exact h.stored
  constructor
  case storage => exact perform_intact_storage h.storage i c e
  case calls => simp only [Topic.advanced, setPc, perform_calls, h.calls]
  case stored => exact stored
  case file =>
    rw [(advanced_file stored).2.2, advanced_log h.stored, List.map_append, List.flatten_append,
      h.file]
  case same =>
    intro hf
    obtain ⟨hg, hk, -⟩ := advanced_file hf
    rw [h.same hg]
    cases e with
    | failStore d kept => exact (hk d kept rfl).elim
    | _ => rfl
  case torn => exact h.torn_advanced

theorem next_intact (hn : t.next i c = some (pc, e)) : e.intact = e := by
  cases next_cases hn with
  | failStore hpc hd kept =>
    simp only [next, hpc, hd, Option.map_some, Option.some.injEq, Prod.mk.injEq] at hn
    exact Effect.noConfusion hn.2
  | _ => rfl

theorem Mirrors.step_advance (h : Mirrors t u) (hc : t.calls[i]? = some c)
    (hn : t.next i c = some (pc, e)) :
    u.step hash (.advance i) = some (u.advanced i c pc e) := by
  simp only [Topic.step, h.calls, hc, Option.bind_some, next_congr h.storage h.calls, hn,
    Option.map_some]

theorem Mirrors.step (h : Mirrors t u) (hs : t.step hash a = some t') :
    ∃ u', u.step hash a.intact = some u' ∧ Mirrors t' u' := by
  cases a with
  | invoke client op =>
    simp only [Topic.step, Option.ite_none_right_eq_some, Option.some.injEq] at hs
    obtain ⟨hp, rfl⟩ := hs
    refine ⟨_, ?_, h.invoked client op _⟩
    simp only [TopicAction.intact, Topic.step, h.storage, if_pos hp]
  | advance i =>
    obtain ⟨c, hc, hs⟩ := Option.bind_eq_some_iff.1 hs
    obtain ⟨⟨pc, e⟩, hn, rfl⟩ := Option.map_eq_some_iff.1 hs
    have hu := h.advanced i c pc e
    rw [next_intact hn] at hu
    exact ⟨_, h.step_advance hc hn, hu⟩
  | failStore i kept =>
    obtain ⟨c, hc, hs⟩ := Option.bind_eq_some_iff.1 hs
    obtain ⟨⟨pc, e⟩, hn, hs⟩ := Option.bind_eq_some_iff.1 hs
    cases e with
    | store d =>
      cases hs
      exact ⟨_, h.step_advance hc hn, h.advanced i c pc (.failStore d kept)⟩
    | _ => cases hs

theorem mirrors_of_exec (h : exec (step hash) (init n) acts = some t) :
    ∃ u, exec (step hash) (init n) (acts.map TopicAction.intact) = some u ∧ Mirrors t u :=
  exec_map (fun _ _ _ _ h hs => h.step hs) (mirrors_init n) h

theorem Mirrors.prefix_file (h : Mirrors t u) : t.wallWriter.file <+: u.wallWriter.file := by
  cases hf : t.wallWriter.failed with
  | false => exact h.same hf ▸ List.prefix_refl _
  | true =>
    obtain ⟨d, kept, ⟨ds, hp⟩, hfile⟩ := h.torn hf
    rw [hfile, h.file, ← hp]
    simp only [List.map_append, List.flatten_append, List.map_cons, List.map_nil,
      List.flatten_cons, List.flatten_nil, List.append_nil, List.append_assoc]
    apply (List.prefix_append_right_inj _).2
    exact (List.take_prefix _ _).trans (List.prefix_append _ _)

/-- The records of the partition rebuild what it held at some moment of the run, or what it
holds once the call that has its lock makes its change. -/
def Restorable (hash : Request → Nat) (n : Nat) (acts : List TopicAction) (t : Topic)
    (p : UInt16) : Prop :=
  (∃ before u, before <+: acts ∧ exec (step hash) (init n) before = some u ∧
      replay (t.records p) = some (u.texts p)) ∨
    ∃ c ∈ t.calls, c.partition = p ∧ c.pc.recorded = true ∧ t.OneAhead c

theorem restorable_of_good (h : exec (step hash) (init n) acts = some t)
    (hf : t.wallWriter.failed = false) (p : UInt16) : Restorable hash n acts t p := by
  have hl := logged_of_exec h hf
  by_cases hr : ∃ c ∈ t.calls, c.partition = p ∧ c.pc.recorded = true
  · obtain ⟨c, hm, hp, hc⟩ := hr
    obtain ⟨i, hi⟩ := List.getElem?_of_mem hm
    exact .inr ⟨c, hm, hp, hc, hl.oneAhead (coherent_of_exec h) hi hc⟩
  · refine .inl ⟨acts, t, List.prefix_refl _, h, hl.settled p fun i c hc hp => ?_⟩
    apply Bool.eq_false_iff.2
    intro hrec
    exact hr ⟨c, List.mem_of_getElem? hc, hp, hrec⟩

theorem records_of_failed (hs : t.step hash a = some u) (hf : u.wallWriter.failed = true) :
    u.records p = t.records p := by
  obtain ⟨client, op, -, -, -, rfl⟩ | ⟨i, c, pc, e, -, -, -, rfl⟩ := step_cases hs
  · exact invoked_records ..
  · rw [records, advanced_log_of_failed hf, records]

theorem OneAhead.congr (h : t.OneAhead c) (hr : u.records c.partition = t.records c.partition)
    (ht : u.texts c.partition = t.texts c.partition) : u.OneAhead c := by
  rw [OneAhead, hr, ht]
  exact h

theorem oneAhead_advanced_self (hco : Coherent t) (hc : t.calls[i]? = some c)
    (hn : Next t i c pc e) (hr : c.pc.recorded = true) (ha : t.OneAhead c)
    (hrec : (t.advanced i c pc e).records c.partition = t.records c.partition) :
    replay ((t.advanced i c pc e).records c.partition) =
        some ((t.advanced i c pc e).texts c.partition) ∨
      pc.recorded = true ∧ (t.advanced i c pc e).OneAhead { c with pc := pc } := by
  have hk (d : WallData) (kept : Nat) : e ≠ .failStore d kept := by
    rintro rfl
    cases hn with
    | failStore hpc => rw [hpc] at hr; cases hr
  rcases hn.wall_cases (hco.sound i c hc) hk with
    ⟨-, hsame, heq⟩ | ⟨-, -, -, -, hpc, -⟩ | ⟨-, -, -, hreplay⟩
  · have ht : (t.advanced i c pc e).texts c.partition = t.texts c.partition := by
      rw [texts_advanced_self (hco.inRange i c hc), hsame, texts]
    exact .inr ⟨heq.trans hr, ha.congr hrec ht⟩
  · rw [hpc] at hr
    cases hr
  · left
    obtain ⟨ds, d, q, hd, hds, hrep, -⟩ := ha
    rw [hrec, hds, replay_concat, hrep, texts_advanced_self (hco.inRange i c hc)]
    exact hreplay d hd

theorem restorable_of_exec (h : exec (step hash) (init n) acts = some t) (p : UInt16) :
    Restorable hash n acts t p := by
  induction acts using List.reverseRecOn generalizing t with
  | nil =>
    cases h
    exact restorable_of_good rfl rfl p
  | append_singleton acts a ih =>
    cases hf : t.wallWriter.failed with
    | false => exact restorable_of_good h hf p
    | true =>
      have hrun := h
      rw [exec_concat] at h
      obtain ⟨s, hs, hstep⟩ := Option.bind_eq_some_iff.1 h
      have hrec := records_of_failed (p := p) hstep hf
      rcases ih hs with ⟨before, u, hp, hu, hrep⟩ | ⟨c, hm, rfl, hr, ha⟩
      · exact .inl ⟨before, u, hp.trans (List.prefix_append _ _), hu, hrec ▸ hrep⟩
      · have hco := coherent_of_exec hs
        obtain ⟨j, hj⟩ := List.getElem?_of_mem hm
        obtain ⟨_, _, -, -, -, rfl⟩ | ⟨i, d, pc, e, -, hd, hn, rfl⟩ := step_cases hstep
        · refine .inr ⟨c, ?_, rfl, hr, ?_⟩
          · exact List.mem_of_getElem? (calls_invoked.2 (.inl hj))
          · exact ha.congr hrec rfl
        · by_cases hij : j = i
          · subst hij
            obtain rfl := Option.some.inj (hj.symm.trans hd)
            rcases oneAhead_advanced_self hco hj hn hr ha hrec with hrep | ⟨hr', ha'⟩
            · exact .inl ⟨_, _, List.prefix_refl _, hrun, hrep⟩
            · exact .inr ⟨_, List.mem_of_getElem? (calls_advanced_self hj), rfl, hr', ha'⟩
          · refine .inr ⟨c, List.mem_of_getElem? (calls_advanced_ne hd hij hj), rfl, hr, ?_⟩
            have hq := queue_stable hco.locks hd hn (hco.inRange i d hd) hij hj
              (.inl (Pc.holdsWrite_of_recorded hr))
            exact ha.congr hrec (congrArg (List.map Message.text) hq)

/-- What follows the log in the file: nothing, or after a failure a part of the record of one more
call. -/
def Torn (t : Topic) (torn : List UInt8) : Prop :=
  if t.wallWriter.failed then
    ∃ c ∈ t.calls, ∃ d kept, c.wallData = some d ∧ torn = d.bytes.take kept
  else torn = []

/-- Whichever stores fail and wherever they tear, the file is the log and at most a part of one
more record, and the records of each partition take it back to a moment of the run. -/
theorem torn_wall (h : exec (step hash) (init n) acts = some t) :
    (∃ torn, t.wallWriter.file = (t.log.map WallData.bytes).flatten ++ torn ∧ t.Torn torn) ∧
      ∀ p, Restorable hash n acts t p := by
  refine ⟨?_, restorable_of_exec h⟩
  obtain ⟨u, hexec, hu⟩ := mirrors_of_exec h
  cases hf : t.wallWriter.failed with
  | false =>
    obtain rfl := hu.same hf
    refine ⟨[], hu.file.trans (List.append_nil _).symm, ?_⟩
    simp only [Torn, hf, Bool.false_eq_true, if_false]
  | true =>
    obtain ⟨d, kept, hp, hfile⟩ := hu.torn hf
    have hmem : d ∈ u.log := hp.subset (List.mem_append_right _ List.mem_cons_self)
    obtain ⟨i, c, hc, hcd⟩ := (logged_of_exec hexec hu.stored).origin d hmem
    rw [hu.calls] at hc
    refine ⟨d.bytes.take kept, hfile, ?_⟩
    simp only [Torn, hf, if_true]
    exact ⟨c, List.mem_of_getElem? hc, d, kept, hcd, rfl⟩

/-- The second push fails after three bytes of its record, and is made nevertheless. -/
def tornRun : List TopicAction :=
  .invoke 0 (.push (.ofByte 98) (.replicate 5 0)) :: List.replicate 6 (.advance 0) ++
    [.invoke 0 (.push (.ofByte 99) (.replicate 5 0)), .advance 1, .advance 1, .failStore 1 3,
      .advance 1, .advance 1, .advance 1]

theorem torn_wall_secondPush : ∃ t, exec (step fun _ => 0) (init 1) tornRun = some t ∧
    t.wallWriter.file.length = sizeofWallData + 3 ∧ t.texts 0 = [[98], [99]] ∧
      Restorable (fun _ => 0) 1 tornRun t 0 := by
  have hrun : (exec (step fun _ => 0) (init 1) tornRun).map
      (fun t => (t.wallWriter.file.length, t.texts 0)) =
        some (sizeofWallData + 3, [[98], [99]]) := by decide +kernel
  obtain ⟨t, ht, he⟩ := Option.map_eq_some_iff.1 hrun
  obtain ⟨hlen, htexts⟩ := Prod.mk.inj he
  exact ⟨t, ht, hlen, htexts, (torn_wall ht).2 0⟩

end Topic
end Noctua
