import Noctua.Messages.Chains
import Mathlib.Data.List.Perm.Subperm

namespace Noctua.Messages
set_option autoImplicit true

namespace NodeEvent

def node : NodeEvent → Nat
  | followed id | destroyed id => id

def destroyedId : NodeEvent → Option Nat
  | destroyed id => some id
  | followed _ => none

end NodeEvent

/-- No event is about a node that has been destroyed before. -/
def SafeLog (log : List NodeEvent) : Prop :=
  log.Pairwise fun e e' => ∀ id, e = .destroyed id → e'.node ≠ id

def addresses (F : ListFamily Entry) : List Nat :=
  Ledger.holdings (fun o => (o.getD []).map Entry.address) F

def ids (F : ListFamily Entry) : List Nat := Ledger.holdings (fun o => (o.getD []).map Entry.id) F

namespace MessageHeap
variable {s t : MessageHeap} {F : ListFamily Entry} {q : MessageQueue} {es gone : List Entry}

def destroyed (s : MessageHeap) : List Nat := s.log.filterMap NodeEvent.destroyedId

/-- Each queue that lives is a chain of its list. -/
def ChainedAll (nodes : Nat → Option MessageNode) (qs : List (Option MessageQueue))
    (F : ListFamily Entry) : Prop :=
  ∀ i q es, qs[i]?.join = some q → F.live i = some es → Chained nodes q es

/-- The queues are chains of the nodes of their lists, no two share a node, and every node ever
created is in one of them or has been destroyed. -/
structure Represents (s : MessageHeap) (F : ListFamily Entry) : Prop where
  alive : s.queues.map Option.isSome = F.map Option.isSome
  chained : ChainedAll s.nodes s.queues F
  apart : (addresses F).Nodup
  bounded : ∀ a ∈ addresses F, a < 2 ^ MessageNode.nextBits
  ledger : Ledger.Balanced (List.range s.created) [] (ids F) s.destroyed (List.range s.created)
  safe : SafeLog s.log

theorem represents_init : Represents {} [] where
  alive := rfl
  chained i q es hi := by cases hi
  apart := List.nodup_nil
  bounded a ha := by cases ha
  ledger := Ledger.balanced_nil
  safe := List.Pairwise.nil

section
variable {vs : List Nat} {evs : List NodeEvent} {e : NodeEvent}

theorem destroyed_visit (hl : t.log = s.log ++ vs.flatMap visit) :
    t.destroyed = s.destroyed ++ vs := by
  rw [destroyed, hl, List.filterMap_append, destroyed]
  congr 1
  clear hl
  induction vs with
  | nil => rfl
  | cons v vs ih =>
    rw [List.flatMap_cons, List.filterMap_append, ih]
    rfl

theorem node_mem (he : e ∈ vs.flatMap visit) : e.node ∈ vs := by
  obtain ⟨v, hv, hm⟩ := List.mem_flatMap.1 he
  obtain hm | hm := List.mem_pair.1 hm
  · exact hm ▸ hv
  · exact hm ▸ hv

theorem safeLog_visit (hn : vs.Nodup) : SafeLog (vs.flatMap visit) := by
  induction vs with
  | nil => exact List.Pairwise.nil
  | cons v vs ih =>
    obtain ⟨hv, hn⟩ := List.nodup_cons.1 hn
    refine List.pairwise_append.2 ⟨?_, ih hn, ?_⟩
    · exact List.pairwise_pair.2 fun _ hf => NodeEvent.noConfusion hf
    · intro e he e' he' id hd hid
      have hm := node_mem he'
      obtain rfl | rfl := List.mem_pair.1 he
      · cases hd
      · cases hd
        exact hv (hid ▸ hm)

theorem safeLog_append (h : SafeLog evs)
    (hd : (vs ++ evs.filterMap NodeEvent.destroyedId).Nodup) :
    SafeLog (evs ++ vs.flatMap visit) := by
  refine List.pairwise_append.2 ⟨h, safeLog_visit hd.of_append_left, ?_⟩
  rintro e he e' he' id rfl rfl
  exact List.disjoint_of_nodup_append hd (node_mem he') (List.mem_filterMap.2 ⟨_, he, rfl⟩)

end

theorem Represents.isSome_live (h : Represents s F) (i : Nat) :
    (s.live i).isSome = (F.live i).isSome := by
  rw [live, ListFamily.live, ListFamily.isSome_join, ListFamily.isSome_join, h.alive]

theorem Represents.exists_live (h : Represents s F) (hi : s.live i = some q) :
    ∃ es, F.live i = some es ∧ Chained s.nodes q es := by
  have hs := h.isSome_live i
  rw [hi] at hs
  obtain ⟨es, he⟩ := Option.isSome_iff_exists.1 hs.symm
  exact ⟨es, he, h.chained i q es hi he⟩

theorem Represents.exists_queue (h : Represents s F) (ha : a ∈ addresses F) :
    ∃ i q es, s.live i = some q ∧ F.live i = some es ∧ a ∈ es.map Entry.address := by
  obtain ⟨o, ho, hm⟩ := List.mem_flatMap.1 ha
  obtain ⟨i, hi⟩ := List.mem_iff_getElem?.1 ho
  cases o with
  | none => cases hm
  | some es =>
    have he : F.live i = some es := Option.join_eq_some_iff.2 hi
    have hs := h.isSome_live i
    rw [he] at hs
    obtain ⟨q, hq⟩ := Option.isSome_iff_exists.1 hs
    exact ⟨i, q, es, hq, he, hm⟩

theorem mem_addresses (hi : F.live i = some es) (ha : a ∈ es.map Entry.address) :
    a ∈ addresses F := Ledger.mem_holdings (Option.join_eq_some_iff.1 hi) ha

theorem Represents.not_mem (h : Represents s F) (hi : F.live i = some es)
    (hj : F.live j = some fs) (hne : i ≠ j) (ha : a ∈ fs.map Entry.address) :
    a ∉ es.map Entry.address := fun ha' =>
  hne (Ledger.holdings_sole h.apart (Option.join_eq_some_iff.1 hi)
    (Option.join_eq_some_iff.1 hj) ha' ha)

section
variable {nodes : Nat → Option MessageNode} {qs : List (Option MessageQueue)} {i : Nat}

theorem chainedAll_set (h : ∀ j q es, i ≠ j → qs[j]?.join = some q → F.live j = some es →
      Chained nodes q es) (hi : qs[i]?.join = some p) (he : F.live i = some fs)
    (hc : ∀ q es, q' = some q → o = some es → Chained nodes q es) :
    ChainedAll nodes (qs.set i q') (F.set i o) := by
  intro j q es hq hf
  rw [ListFamily.live] at hf
  by_cases hne : i = j
  · subst hne
    rw [ListFamily.join_set_self hi] at hq
    rw [ListFamily.join_set_self he] at hf
    exact hc q es hq hf
  · rw [ListFamily.join_set_ne hne] at hq hf
    exact h j q es hne hq hf

theorem ChainedAll.concat (h : ChainedAll nodes qs F)
    (ha : qs.map Option.isSome = F.map Option.isSome) (hc : Chained nodes p fs) :
    ChainedAll nodes (qs ++ [some p]) (F ++ [some fs]) := by
  intro i q es hq hf
  have hl : qs.length = F.length := by simpa using congrArg List.length ha
  rw [ListFamily.join_concat] at hq
  rw [ListFamily.live, ListFamily.join_concat, ← hl] at hf
  split at hq
  · rename_i hi
    rw [if_pos hi] at hf
    cases hq
    cases hf
    exact hc
  · rename_i hi
    rw [if_neg hi] at hf
    exact h i q es hq hf

theorem alive_set (h : qs.map Option.isSome = F.map Option.isSome) (ho : q'.isSome = o.isSome) :
    (qs.set i q').map Option.isSome = (F.set i o).map Option.isSome := by
  rw [List.map_set, List.map_set, h, ho]

end

theorem Represents.others (h : Represents s F) (he : F.live i = some es)
    (hframe : ∀ a ∈ addresses F, a ∉ es.map Entry.address → t.nodes a = s.nodes a) :
    ∀ j p fs, i ≠ j → s.queues[j]?.join = some p → F.live j = some fs →
      Chained t.nodes p fs := by
  intro j p fs hne hp hf
  apply (h.chained j p fs hp hf).frame
  intro e hm
  have ha := List.mem_map_of_mem (f := Entry.address) hm
  exact hframe _ (mem_addresses hf ha) (h.not_mem he hf hne ha)

theorem Represents.remove (h : Represents s F) (hi : s.live i = some q)
    (he : F.live i = some es) (hr : Removed s gone t) (hes : es = gone ++ o.getD [])
    (ho : q'.isSome = o.isSome)
    (hc : ∀ p fs, q' = some p → o = some fs → Chained t.nodes p fs) :
    Represents (t.setQueue i q') (F.set i o) := by
  have hq : (t.setQueue i q').queues = s.queues.set i q' := congrArg (·.set i q') hr.queues
  have he' := Option.join_eq_some_iff.1 he
  have addr : (addresses F).Perm (gone.map Entry.address ++ addresses (F.set i o)) :=
    Ledger.holdings_drop he' (by rw [hes]; exact List.map_append)
  have idp : (ids F).Perm (gone.map Entry.id ++ ids (F.set i o)) :=
    Ledger.holdings_drop he' (by rw [hes]; exact List.map_append)
  have hd : (t.setQueue i q').destroyed = s.destroyed ++ gone.map Entry.id :=
    destroyed_visit hr.log
  have hn : (ids F ++ s.destroyed).Nodup := h.ledger.states.nodup_iff.2 List.nodup_range
  constructor
  case alive =>
    rw [hq]
    exact alive_set h.alive ho
  case chained =>
    rw [hq]
    apply chainedAll_set (h.others he _) hi he hc
    intro a ha hna
    apply hr.frame
    intro hg
    apply hna
    rw [hes, List.map_append]
    exact List.mem_append_left _ hg
  case apart => exact (addr.nodup_iff.1 h.apart).of_append_right
  case bounded => exact fun a ha => h.bounded a (addr.symm.subset (List.mem_append_right _ ha))
  case ledger =>
    rw [hd]
    change Ledger.Balanced (List.range t.created) _ _ _ (List.range t.created)
    rw [hr.created]
    exact h.ledger.settle idp
  case safe =>
    change SafeLog t.log
    rw [hr.log]
    apply safeLog_append h.safe
    have hp := (idp.append_right s.destroyed).nodup_iff.1 hn
    exact hp.sublist ((List.sublist_append_left _ _).append_right _)

theorem Represents.append (h : Represents s F) (hi : s.live i = some q)
    (he : F.live i = some es) (ha : s.nodes e.address = none)
    (hlt : e.address < 2 ^ MessageNode.nextBits) (hid : e.id = s.created)
    (hp : Pushed s es e p t) :
    Represents (t.setQueue i (some p)) (F.set i (some (es ++ [e]))) := by
  have hq : (t.setQueue i (some p)).queues = s.queues.set i (some p) :=
    congrArg (·.set i (some p)) hp.queues
  have he' := Option.join_eq_some_iff.1 he
  have addr : (addresses (F.set i (some (es ++ [e])))).Perm (addresses F ++ [e.address]) :=
    Ledger.holdings_extend he' List.map_append
  have idp : (ids (F.set i (some (es ++ [e])))).Perm (ids F ++ [e.id]) :=
    Ledger.holdings_extend he' List.map_append
  have fresh : e.address ∉ addresses F := by
    intro hm
    obtain ⟨j, p', fs, hj, hf, hmem⟩ := h.exists_queue hm
    obtain ⟨-, n, hn⟩ := (h.chained j p' fs hj hf).linked.live hmem
    cases ha.symm.trans hn
  constructor
  case alive =>
    rw [hq]
    exact alive_set h.alive rfl
  case chained =>
    rw [hq]
    apply chainedAll_set (h.others he _) hi he
    · rintro p' fs ⟨⟩ ⟨⟩
      exact hp.chained
    · intro a hm hn
      exact hp.frame a (fun hae => fresh (hae ▸ hm)) hn
  case apart =>
    apply addr.nodup_iff.2
    refine List.nodup_append'.2 ⟨h.apart, List.nodup_singleton _, fun a hm hm' => ?_⟩
    exact fresh (List.mem_singleton.1 hm' ▸ hm)
  case bounded =>
    intro a hm
    obtain hm | hm := List.mem_append.1 (addr.subset hm)
    · exact h.bounded a hm
    · exact List.mem_singleton.1 hm ▸ hlt
  case ledger =>
    have hd : (t.setQueue i (some p)).destroyed = s.destroyed :=
      congrArg (List.filterMap NodeEvent.destroyedId) hp.log
    rw [hd]
    change Ledger.Balanced (List.range t.created) _ _ _ (List.range t.created)
    rw [hp.created, List.range_succ]
    apply h.ledger.admit
    rw [hid] at idp
    exact idp.trans List.perm_append_comm
  case safe =>
    change SafeLog t.log
    rw [hp.log]
    exact h.safe

theorem Represents.rearrange {qs : List (Option MessageQueue)} {F' : ListFamily Entry}
    (h : Represents s F) (ha : qs.map Option.isSome = F'.map Option.isSome)
    (hc : ∀ i q es, qs[i]?.join = some q → F'.live i = some es → Chained s.nodes q es)
    (haddr : (addresses F').Perm (addresses F)) (hid : (ids F').Perm (ids F)) :
    Represents { s with queues := qs } F' where
  alive := ha
  chained := hc
  apart := haddr.nodup_iff.2 h.apart
  bounded a hm := h.bounded a (haddr.subset hm)
  ledger := h.ledger.move hid.symm
  safe := h.safe

theorem Represents.construct (h : Represents s F) :
    Represents { s with queues := s.queues ++ [some {}] } (F ++ [some []]) := by
  apply h.rearrange
  · rw [List.map_append, List.map_append, h.alive]
    rfl
  · exact h.chained.concat h.alive chained_nil
  · rw [addresses, Ledger.holdings_concat]
    exact .of_eq (List.append_nil _)
  · rw [ids, Ledger.holdings_concat]
    exact .of_eq (List.append_nil _)

theorem Represents.moveConstruct (h : Represents s F) (hj : s.live j = some q)
    (hf : F.live j = some es) :
    Represents { s with queues := s.queues.set j (some {}) ++ [some q] }
      (F.set j (some []) ++ [some es]) := by
  have ha : (s.queues.set j (some {})).map Option.isSome =
      (F.set j (some [])).map Option.isSome := alive_set h.alive rfl
  have hc := h.chained j q es hj hf
  apply h.rearrange
  · rw [List.map_append, List.map_append, ha]
    rfl
  · apply ChainedAll.concat _ ha hc
    apply chainedAll_set (fun i p fs _ => h.chained i p fs) hj hf
    rintro p fs ⟨⟩ ⟨⟩
    exact chained_nil
  · exact Ledger.holdings_transfer (Option.join_eq_some_iff.1 hf) rfl
  · exact Ledger.holdings_transfer (Option.join_eq_some_iff.1 hf) rfl

theorem Represents.moveAssign (h : Represents s F) (hi : s.live i = some p)
    (hj : s.live j = some q) (he : F.live i = some es) (hf : F.live j = some fs) :
    Represents { s with queues := (s.queues.set i (some q)).set j (some p) }
      ((F.set i (some fs)).set j (some es)) := by
  have hfirst : ChainedAll s.nodes (s.queues.set i (some q)) (F.set i (some fs)) := by
    apply chainedAll_set (fun k p fs _ => h.chained k p fs) hi he
    rintro p fs ⟨⟩ ⟨⟩
    exact h.chained j _ _ hj hf
  have hq : (s.queues.set i (some q))[j]?.join = some q := by
    by_cases hne : i = j
    · rw [← hne, ListFamily.join_set_self hi]
    · rw [ListFamily.join_set_ne hne]
      exact hj
  have hl : ListFamily.live (F.set i (some fs)) j = some fs := by
    rw [ListFamily.live]
    by_cases hne : i = j
    · rw [← hne, ListFamily.join_set_self he]
    · rw [ListFamily.join_set_ne hne]
      exact hf
  apply h.rearrange
  · exact alive_set (alive_set h.alive rfl) rfl
  · apply chainedAll_set (fun k p fs _ => hfirst k p fs) hq hl
    rintro p fs ⟨⟩ ⟨⟩
    exact h.chained i _ _ hi he
  · exact Ledger.holdings_swap (Option.join_eq_some_iff.1 he) (Option.join_eq_some_iff.1 hf)
  · exact Ledger.holdings_swap (Option.join_eq_some_iff.1 he) (Option.join_eq_some_iff.1 hf)

theorem length_le_holdings {g : Entry → Nat} (he : F.live i = some es) :
    es.length ≤ (Ledger.holdings (fun o => (o.getD []).map g) F).length := by
  have hp : (Ledger.holdings (fun o => (o.getD []).map g) F).Perm
      (es.map g ++ Ledger.holdings (fun o => (o.getD []).map g) (F.set i none)) :=
    Ledger.holdings_drop (Option.join_eq_some_iff.1 he) (List.append_nil _).symm
  rw [hp.length_eq, List.length_append, List.length_map]
  exact Nat.le_add_right _ _

theorem Represents.length_le (h : Represents s F) (he : F.live i = some es) :
    es.length ≤ s.created ∧ es.length ≤ 2 ^ MessageNode.nextBits := by
  constructor
  · apply (length_le_holdings (g := Entry.id) he).trans
    have hp := h.ledger.states.length_eq
    rw [List.nil_append, List.length_append, List.length_range] at hp
    exact hp ▸ Nat.le_add_right _ _
  · apply (length_le_holdings (g := Entry.address) he).trans
    have hs := List.subperm_of_subset h.apart fun a ha => List.mem_range.2 (h.bounded a ha)
    exact hs.length_le.trans (List.length_range ..).le

/-- The abstract operation; a pushed message is known by its address and the node's number. -/
def entryOf (s : MessageHeap) : QueueAction → ListFamily.Operation Entry
  | .construct => .construct
  | .push i msg address => .push i ⟨address, s.created, msg⟩
  | .pop i => .pop i
  | .moveConstruct j => .moveConstruct j
  | .moveAssign i j => .moveAssign i j
  | .destroy i => .destroy i

/-- An allowed operation does what it does to lists, and touches no node that does not live. -/
theorem Represents.step (h : Represents s F) (ha : s.Allowed a) :
    ∃ t, s.step a = some t ∧ Represents t (F.step (s.entryOf a)) := by
  cases a with
  | construct => exact ⟨_, rfl, h.construct⟩
  | push i msg address =>
    obtain ⟨hl, hz, hlt, hfree⟩ := ha
    obtain ⟨q, hi⟩ := Option.isSome_iff_exists.1 hl
    obtain ⟨es, he, hc⟩ := h.exists_live hi
    have hn : es.length + 1 < 2 ^ 64 :=
      (Nat.succ_le_succ (h.length_le he).2).trans_lt (by decide)
    obtain ⟨p, t, hp, hpushed⟩ := push_spec msg hc hfree hz hlt hn
    refine ⟨t.setQueue i (some p), ?_, ?_⟩
    · rw [MessageHeap.step, hi, Option.bind_some, hp]
      rfl
    · have hr := h.append hi he hfree hlt rfl hpushed
      simpa only [entryOf, ListFamily.step, he] using hr
  | pop i =>
    obtain ⟨q, hi⟩ := Option.isSome_iff_exists.1 ha
    obtain ⟨es, he, hc⟩ := h.exists_live hi
    obtain ⟨p, t, hp, hchain, hr⟩ := pop_spec hc
    refine ⟨t.setQueue i (some p), ?_, ?_⟩
    · rw [MessageHeap.step, hi, Option.bind_some, hp]
      rfl
    · have hes : es = es.take 1 ++ (some es.tail).getD [] := by cases es <;> rfl
      have hrep : Represents (t.setQueue i (some p)) (F.set i (some es.tail)) := by
        apply h.remove hi he hr hes rfl
        rintro q fs ⟨⟩ ⟨⟩
        exact hchain
      simpa only [entryOf, ListFamily.step, he] using hrep
  | moveConstruct j =>
    obtain ⟨q, hj⟩ := Option.isSome_iff_exists.1 ha
    obtain ⟨es, he, -⟩ := h.exists_live hj
    refine ⟨_, congrArg (Option.map _) hj, ?_⟩
    simpa only [entryOf, ListFamily.step, he] using h.moveConstruct hj he
  | moveAssign i j =>
    obtain ⟨p, hi⟩ := Option.isSome_iff_exists.1 ha.1
    obtain ⟨q, hj⟩ := Option.isSome_iff_exists.1 ha.2
    obtain ⟨es, he, -⟩ := h.exists_live hi
    obtain ⟨fs, hf, -⟩ := h.exists_live hj
    have hs : s.step (.moveAssign i j) =
        some { s with queues := (s.queues.set i (some q)).set j (some p) } := by
      rw [MessageHeap.step, hi, hj]
      rfl
    refine ⟨_, hs, ?_⟩
    simpa only [entryOf, ListFamily.step, he, hf] using h.moveAssign hi hj he hf
  | destroy i =>
    obtain ⟨q, hi⟩ := Option.isSome_iff_exists.1 ha
    obtain ⟨es, he, hc⟩ := h.exists_live hi
    obtain ⟨t, ht, hr⟩ := destroyLoop_spec hc.linked hc.holds
      (Nat.lt_succ_of_le (h.length_le he).1)
    refine ⟨t.setQueue i none, ?_, ?_⟩
    · rw [MessageHeap.step, hi, Option.bind_some, ht]
      rfl
    · apply h.remove hi he hr (List.append_nil _).symm rfl
      rintro p fs ⟨⟩

end MessageHeap
end Noctua.Messages
