import Noctua.Topic.Trace

namespace Noctua
open Transition
set_option autoImplicit true

section
variable {l : List α} {f : α → Option β}

theorem filterMap_singleton (f : α → Option β) (x : α) : [x].filterMap f = (f x).toList := by
  rw [List.filterMap_cons]
  cases f x <;> rfl

theorem filterMap_concat (l : List α) (f : α → Option β) (x : α) :
    (l ++ [x]).filterMap f = l.filterMap f ++ (f x).toList := by
  rw [List.filterMap_append, filterMap_singleton]

theorem filterMap_set_eq (h : l[i]? = some x) (hf : f y = f x) :
    (l.set i y).filterMap f = l.filterMap f := by
  induction l generalizing i with
  | nil => cases h
  | cons z l ih =>
    cases i with
    | zero =>
      cases h
      rw [List.set_cons_zero, List.filterMap_cons, List.filterMap_cons, hf]
    | succ i =>
      rw [List.set_cons_succ, List.filterMap_cons, List.filterMap_cons, ih h]

theorem filterMap_only (h : l[i]? = some x)
    (ho : ∀ (j : Nat) y, j ≠ i → l[j]? = some y → f y = none) :
    l.filterMap f = (f x).toList := by
  induction l generalizing i with
  | nil => cases h
  | cons z l ih =>
    cases i with
    | zero =>
      cases h
      have hl : l.filterMap f = [] := by
        rw [List.filterMap_eq_nil_iff]
        intro y hy
        obtain ⟨j, hj⟩ := List.mem_iff_getElem?.1 hy
        exact ho (j + 1) y (Nat.succ_ne_zero j) hj
      rw [List.filterMap_cons, hl]
      cases f x <;> rfl
    | succ i =>
      rw [List.filterMap_cons_none (ho 0 z (Nat.succ_ne_zero i).symm rfl)]
      exact ih h fun j y hj hy => ho (j + 1) y (fun he => hj (Nat.succ.inj he)) hy

end

/-- The text that a call of this client pushes to partition `p`. -/
def Call.pushText (client : Nat) (p : UInt16) (c : Call) : Option Text :=
  match c.operation with
  | .push r _ => if c.client = client ∧ c.partition = p then some r.message.text else none
  | _ => none

def Call.unpushedText (client : Nat) (p : UInt16) (c : Call) : Option Text :=
  if c.pc.hasPushed then none else c.pushText client p

theorem Call.pushText_push {c : Call} (hop : c.operation = .push r padding) :
    c.pushText c.client c.partition = some r.message.text := by
  rw [pushText, hop]
  exact if_pos ⟨rfl, rfl⟩

theorem Call.pushText_some {c : Call} {client : Nat} (h : c.pushText client p = some x) :
    c.client = client ∧ c.partition = p ∧ ∃ r padding, c.operation = .push r padding := by
  rw [pushText] at h
  split at h
  · rename_i hop
    obtain ⟨⟨hc, hp⟩, -⟩ := Option.ite_none_right_eq_some.1 h
    exact ⟨hc, hp, _, _, hop⟩
  · cases h

theorem Call.Sound.pushed_of_finished {c : Call} (h : c.Sound q)
    (hop : c.operation = .push r padding) (hf : c.pc.isFinished = true) :
    c.pc.hasPushed = true := by
  obtain ⟨client, op, p, pc⟩ := c
  cases hop
  cases pc with
  | finished a =>
    obtain rfl : a = .pushed := h
    rfl
  | _ => cases hf

namespace Topic
variable {t u : Topic} {c : Call} {e : Effect} {p q : UInt16} {hash : Request → Nat}

/-- The texts that the calls of a client push to a partition, in the order of the calls. -/
def requested (t : Topic) (client : Nat) (p : UInt16) : List Text :=
  t.calls.filterMap (Call.pushText client p)

def unpushed (t : Topic) (client : Nat) (p : UInt16) : List Text :=
  t.calls.filterMap (Call.unpushedText client p)

def sentBy (t : Topic) (client : Nat) (m : Message) : Bool :=
  (t.calls[m.origin]?.map Call.client) == some client

/-- The messages of a client in the history of a partition, in the order of the partition. -/
def published (t : Topic) (client : Nat) (p : UInt16) : List Text :=
  ((t.pushed p).filter (t.sentBy client)).map Message.text

/-- A client makes a call only when its calls before have returned. -/
def OneAtATime (t : Topic) : TopicAction → Prop
  | .invoke client _ => ∀ c ∈ t.calls, c.client = client → c.pc.isFinished = true
  | _ => True

instance (t : Topic) (a : TopicAction) : Decidable (t.OneAtATime a) :=
  match a with
  | .invoke _ _ => inferInstanceAs (Decidable (∀ c ∈ t.calls, _))
  | .advance _ | .failStore _ _ => inferInstanceAs (Decidable True)

structure InSequence (t : Topic) : Prop where
  alone : ∀ (i j : Nat) (c d : Call), t.calls[i]? = some c → t.calls[j]? = some d →
    c.client = d.client → c.pc.isFinished = false → d.pc.isFinished = false → i = j
  texts : ∀ client p, t.published client p ++ t.unpushed client p = t.requested client p

theorem inSequence_init (n : Nat) : InSequence (init n) where
  alone _ _ _ _ hc := nomatch hc
  texts _ _ := rfl

theorem Operation.start_hasPushed (op : Operation) : op.start.hasPushed = false := by
  cases op <;> rfl

theorem sentBy_invoked (hm : m.origin < t.calls.length) (client s : Nat) (op : Operation)
    (p : UInt16) : (t.invoked s op p).sentBy client m = t.sentBy client m := by
  change (((t.calls ++ [_])[m.origin]?).map Call.client == _) = _
  rw [List.getElem?_append_left hm, sentBy]

theorem published_invoked (h : Accounted t) (client s : Nat) (op : Operation) (p q : UInt16) :
    (t.invoked s op p).published client q = t.published client q := by
  rw [published, invoked_pushed, published]
  congr 1
  apply List.filter_congr
  intro m hm
  obtain ⟨c, hc, -⟩ := h.origins q m hm
  exact sentBy_invoked (List.getElem?_eq_some_iff.1 hc).1 client s op p

theorem InSequence.invoked (h : InSequence t) (ha : Accounted t)
    (hone : ∀ c ∈ t.calls, c.client = s → c.pc.isFinished = true) (op : Operation) (p : UInt16) :
    InSequence (t.invoked s op p) where
  alone := by
    intro i j c d hc hd hcd hci hdi
    rcases calls_invoked.1 hc with hc | ⟨rfl, rfl⟩
    · rcases calls_invoked.1 hd with hd | ⟨rfl, rfl⟩
      · exact h.alone i j c d hc hd hcd hci hdi
      · cases hci.symm.trans (hone c (List.mem_of_getElem? hc) hcd)
    · rcases calls_invoked.1 hd with hd | ⟨rfl, rfl⟩
      · cases hdi.symm.trans (hone d (List.mem_of_getElem? hd) hcd.symm)
      · rfl
  texts := by
    intro client q
    have hx : Call.unpushedText client q ⟨s, op, p, op.start⟩ =
        Call.pushText client q ⟨s, op, p, op.start⟩ := by
      rw [Call.unpushedText, Operation.start_hasPushed, if_neg Bool.false_ne_true]
    rw [published_invoked ha]
    change _ ++ (t.calls ++ [_]).filterMap _ = (t.calls ++ [_]).filterMap _
    rw [filterMap_concat, filterMap_concat, ← List.append_assoc, hx]
    congr 1
    exact h.texts client q

theorem sentBy_advanced (hc : t.calls[i]? = some c) (client : Nat) (pc : Pc) (e : Effect) :
    (t.advanced i c pc e).sentBy client = t.sentBy client := by
  funext m
  by_cases hi : m.origin = i
  · rw [sentBy, hi, calls_advanced_self hc, sentBy, hi, hc]
    rfl
  · cases hm : t.calls[m.origin]? with
    | none =>
      have hlen : (t.advanced i c pc e).calls.length = t.calls.length := by
        rw [advanced, setPc, List.length_set, perform_calls]
      rw [sentBy, sentBy, hm, List.getElem?_eq_none]
      rw [hlen]
      exact List.getElem?_eq_none_iff.1 hm
    | some d => rw [sentBy, calls_advanced_ne hc hi hm, sentBy, hm]

theorem requested_advanced (hc : t.calls[i]? = some c) (client : Nat) (p : UInt16) (pc : Pc)
    (e : Effect) : (t.advanced i c pc e).requested client p = t.requested client p := by
  rw [requested, requested, advanced, setPc, perform_calls]
  exact filterMap_set_eq hc rfl

theorem published_advanced (hc : t.calls[i]? = some c) (client : Nat) (p : UInt16) (pc : Pc)
    (e : Effect) : (t.advanced i c pc e).published client p = t.published client p ++
      ((if c.partition = p then e.appends else []).filter (t.sentBy client)).map Message.text := by
  rw [published, sentBy_advanced hc, pushed_advanced, List.filter_append, List.map_append]
  rfl

theorem Next.hasPushed_eq (hn : Next t i c pc e) (hs : c.Sound ms)
    (hop : c.operation = .push r padding) (he : e.appends = []) :
    pc.hasPushed = c.pc.hasPushed := by
  obtain ⟨client, op, p, pc₀⟩ := c
  cases hop
  cases hn with
  | push => cases he
  | acquireRead hpc | answerRead hpc | releaseRead hpc =>
    cases hpc
    exact hs.elim
  | answerWrite hpc =>
    cases hpc
    obtain rfl := hs
    rfl
  | acquirePush hpc | acquireWall hpc | store hpc | failStore hpc | releaseWall hpc =>
    cases hpc
    rfl
  | readFront _ h | rejectFirst _ h | passFirst _ h | acquireRemove _ h | rejectSecond _ h
  | passSecond _ h | pop _ h => cases h

theorem unpushed_quiet (hc : t.calls[i]? = some c) (hn : Next t i c pc e) (hs : c.Sound ms)
    (he : e.appends = []) (client : Nat) (p : UInt16) :
    (t.advanced i c pc e).unpushed client p = t.unpushed client p := by
  rw [unpushed, unpushed, advanced, setPc, perform_calls]
  apply filterMap_set_eq hc
  rw [Call.unpushedText, Call.unpushedText]
  cases hx : c.pushText client p with
  | none =>
    have hy : Call.pushText client p { c with pc := pc } = none := hx
    rw [hy, ite_self, ite_self]
  | some x =>
    obtain ⟨-, -, r, padding, hop⟩ := Call.pushText_some hx
    have hy : Call.pushText client p { c with pc := pc } = some x := hx
    rw [hn.hasPushed_eq hs hop he, hy]

theorem Next.pushes (hn : Next t i c pc e) (he : e.appends ≠ []) : pc.hasPushed = true ∧
    c.pc.hasPushed = false ∧ c.pc.isFinished = false ∧ ∃ r padding,
      c.operation = .push r padding ∧ e.appends = [⟨i, r.message.text⟩] := by
  cases hn with
  | push hpc hop =>
    rw [hpc]
    exact ⟨rfl, rfl, rfl, _, _, hop, rfl⟩
  | _ => exact (he rfl).elim

theorem InSequence.others {i : Nat} (h : InSequence t) (hco : Coherent t)
    (hc : t.calls[i]? = some c)
    (hf : c.pc.isFinished = false) {j : Nat} (hj : j ≠ i) {d : Call}
    (hd : t.calls[j]? = some d) (p : UInt16) : d.unpushedText c.client p = none := by
  rw [Call.unpushedText]
  cases hx : d.pushText c.client p with
  | none => exact ite_self none
  | some x =>
    obtain ⟨hclient, -, r, padding, hop⟩ := Call.pushText_some hx
    have hfin : d.pc.isFinished = true := by
      by_contra hn
      exact hj (h.alone j i d c hd hc hclient (Bool.eq_false_of_not_eq_true hn) hf)
    exact if_pos ((hco.sound j d hd).pushed_of_finished hop hfin)

theorem InSequence.append (h : InSequence t) (hco : Coherent t) (hc : t.calls[i]? = some c)
    (hn : Next t i c pc e) (he : e.appends ≠ []) :
    (t.advanced i c pc e).published c.client c.partition ++
      (t.advanced i c pc e).unpushed c.client c.partition =
        t.requested c.client c.partition := by
  obtain ⟨hp', hp, hf, r, padding, hop, happ⟩ := hn.pushes he
  have hsent : t.sentBy c.client ⟨i, r.message.text⟩ = true := by
    rw [sentBy, hc]
    exact beq_self_eq_true _
  have hbefore : t.unpushed c.client c.partition = [r.message.text] := by
    rw [unpushed, filterMap_only hc fun j d hj hd => h.others hco hc hf hj hd _,
      Call.unpushedText, hp, Call.pushText_push hop]
    rfl
  have hafter : (t.advanced i c pc e).unpushed c.client c.partition = [] := by
    rw [unpushed, filterMap_only (calls_advanced_self hc)]
    · rw [Call.unpushedText, if_pos hp']
      rfl
    · intro j d hj hd
      rcases (calls_advanced hc).1 hd with ⟨rfl, -⟩ | ⟨-, hd⟩
      · exact (hj rfl).elim
      · exact h.others hco hc hf hj hd _
  rw [published_advanced hc, if_pos rfl, happ, hafter, List.append_nil, List.filter_cons,
    if_pos hsent, ← h.texts, hbefore]
  rfl

theorem InSequence.elsewhere (h : InSequence t) (hc : t.calls[i]? = some c)
    (hn : Next t i c pc e) (he : e.appends ≠ []) (hcp : ¬ (c.client = client ∧ c.partition = p)) :
    (t.advanced i c pc e).published client p ++ (t.advanced i c pc e).unpushed client p =
      t.requested client p := by
  obtain ⟨-, -, -, r, padding, hop, happ⟩ := hn.pushes he
  have hnone (pc : Pc) : Call.pushText client p { c with pc := pc } = none := by
    simp only [Call.pushText, hop]
    exact if_neg hcp
  have hun : (t.advanced i c pc e).unpushed client p = t.unpushed client p := by
    rw [unpushed, unpushed, advanced, setPc, perform_calls]
    apply filterMap_set_eq hc
    rw [Call.unpushedText, Call.unpushedText, hnone pc, hnone c.pc, ite_self, ite_self]
  have hfilter : (if c.partition = p then e.appends else []).filter (t.sentBy client) = [] := by
    split
    · rename_i hp
      rw [happ, List.filter_cons, if_neg, List.filter_nil]
      rw [sentBy, hc, Option.map_some, beq_iff_eq, Option.some.injEq]
      exact fun hclient => hcp ⟨hclient, hp⟩
    · rfl
  rw [published_advanced hc, hfilter, hun, List.map_nil, List.append_nil]
  exact h.texts client p

theorem InSequence.advanced (h : InSequence t) (hco : Coherent t) (hc : t.calls[i]? = some c)
    (hn : Next t i c pc e) : InSequence (t.advanced i c pc e) where
  alone := by
    have before {j : Nat} {d : Call} (hd : (t.advanced i c pc e).calls[j]? = some d)
        (hf : d.pc.isFinished = false) :
        ∃ d', t.calls[j]? = some d' ∧ d'.client = d.client ∧ d'.pc.isFinished = false := by
      rcases (calls_advanced hc).1 hd with ⟨rfl, rfl⟩ | ⟨-, hd⟩
      · refine ⟨c, hc, rfl, ?_⟩
        cases hpc : c.pc with
        | finished a => exact (hn.unfinished hpc).elim
        | _ => rfl
      · exact ⟨d, hd, rfl, hf⟩
    intro j k c' d' hj hk hclient hcf hdf
    obtain ⟨c₀, hc₀, hcc, hcf₀⟩ := before hj hcf
    obtain ⟨d₀, hd₀, hdc, hdf₀⟩ := before hk hdf
    exact h.alone j k c₀ d₀ hc₀ hd₀ (hcc.trans (hclient.trans hdc.symm)) hcf₀ hdf₀
  texts := by
    intro client p
    rw [requested_advanced hc]
    by_cases he : e.appends = []
    · have hnil : (if c.partition = p then e.appends else []) = [] := by
        rw [he, ite_self]
      rw [published_advanced hc, hnil, unpushed_quiet hc hn (hco.sound i c hc) he]
      rw [List.filter_nil, List.map_nil, List.append_nil]
      exact h.texts client p
    · by_cases hcp : c.client = client ∧ c.partition = p
      · obtain ⟨rfl, rfl⟩ := hcp
        exact h.append hco hc hn he
      · exact h.elsewhere hc hn he hcp

theorem InSequence.step (h : InSequence t) (hco : Coherent t) (ha : Accounted t)
    (hone : t.OneAtATime a) (hs : t.step hash a = some u) : InSequence u := by
  obtain ⟨client, op, rfl, -, -, rfl⟩ | ⟨i, c, pc, e, -, hc, hn, rfl⟩ := step_cases hs
  · exact h.invoked ha hone op _
  · exact h.advanced hco hc hn

theorem unpushed_nil (hco : Coherent t)
    (hq : ∀ c ∈ t.calls, c.client = client → c.pc.isFinished = true) (p : UInt16) :
    t.unpushed client p = [] := by
  rw [unpushed, List.filterMap_eq_nil_iff]
  intro c hm
  obtain ⟨i, hc⟩ := List.mem_iff_getElem?.1 hm
  rw [Call.unpushedText]
  cases hx : c.pushText client p with
  | none => exact ite_self none
  | some x =>
    obtain ⟨hclient, -, r, padding, hop⟩ := Call.pushText_some hx
    exact if_pos ((hco.sound i c hc).pushed_of_finished hop (hq c hm hclient))

theorem InSequence.unpushed_length (h : InSequence t) (hco : Coherent t) (client : Nat)
    (p : UInt16) : (t.unpushed client p).length ≤ 1 := by
  by_cases hq : ∀ c ∈ t.calls, c.client = client → c.pc.isFinished = true
  · rw [unpushed_nil hco hq]
    exact Nat.zero_le 1
  · simp only [not_forall] at hq
    obtain ⟨c, hm, rfl, hf⟩ := hq
    obtain ⟨i, hc⟩ := List.mem_iff_getElem?.1 hm
    have hf := Bool.eq_false_of_not_eq_true hf
    rw [unpushed, filterMap_only hc fun j d hj hd => h.others hco hc hf hj hd p]
    exact Option.length_toList_le

/-- When each client waits for its calls to return, the messages of a client stand in each
partition in the order of its calls, each of them once, and only the last may be missing. -/
theorem producers_in_order (h : exec (step hash) (init n) acts = some t)
    (hone : AllSteps (step hash) OneAtATime (init n) acts) (client : Nat) (p : UInt16) :
    t.published client p ++ t.unpushed client p = t.requested client p ∧
      (t.unpushed client p).length ≤ 1 ∧
      ((∀ c ∈ t.calls, c.client = client → c.pc.isFinished = true) →
        t.published client p = t.requested client p) := by
  have keep (t : Topic) (a : TopicAction) (u : Topic)
      (hi : (Coherent t ∧ Accounted t) ∧ InSequence t) (hone : t.OneAtATime a)
      (hs : step hash t a = some u) : (Coherent u ∧ Accounted u) ∧ InSequence u :=
    ⟨accounted_step hi.1 hs, hi.2.step hi.1.1 hi.1.2 hone hs⟩
  obtain ⟨⟨hco, -⟩, hseq⟩ := exec_invariant_of_allSteps keep
    ⟨⟨coherent_init n, accounted_init n⟩, inSequence_init n⟩ hone h
  refine ⟨hseq.texts client p, hseq.unpushed_length hco client p, fun hq => ?_⟩
  rw [← hseq.texts, unpushed_nil hco hq, List.append_nil]

/-- Two clients push two messages each, in turns. -/
def twoProducersRun : List TopicAction :=
  let push (x : UInt8) : Operation := .push (.ofByte x) (.replicate 5 0)
  [.invoke 0 (push 97), .invoke 1 (push 98), .advance 1] ++ .replicate 5 (.advance 1) ++
    .replicate 6 (.advance 0) ++ [.invoke 0 (push 99), .invoke 1 (push 100)] ++
    .replicate 6 (.advance 2) ++ .replicate 6 (.advance 3)

theorem producers_in_order_twoProducers :
    ∃ t, exec (step fun _ => 0) (init 1) twoProducersRun = some t ∧
      t.texts 0 = [[98], [97], [99], [100]] ∧ t.published 0 0 = t.requested 0 0 := by
  have hr : (exec (step fun _ => 0) (init 1) twoProducersRun).map
      (fun t => (t.texts 0, t.calls.map fun c => c.pc.isFinished)) =
        some ([[98], [97], [99], [100]], [true, true, true, true]) := by decide +kernel
  obtain ⟨t, ht, he⟩ := Option.map_eq_some_iff.1 hr
  obtain ⟨htexts, hfin⟩ := Prod.mk.inj he
  refine ⟨t, ht, htexts, (producers_in_order ht (by decide +kernel) 0 0).2.2 ?_⟩
  intro c hc _
  have hm : c.pc.isFinished ∈ [true, true, true, true] :=
    hfin ▸ List.mem_map_of_mem hc
  simpa using hm

end Topic
end Noctua
