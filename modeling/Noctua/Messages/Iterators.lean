import Noctua.Messages.Fifo
import Noctua.Messages.Ownership

namespace Noctua.Messages
open Transition
set_option autoImplicit true

/-- An `iterator_t`; the null pointer is 0. -/
structure MessageIterator where
  message : Nat := 0
  deriving DecidableEq, Repr

namespace MessageQueue

def begin (q : MessageQueue) : MessageIterator := ⟨q.head⟩

def past : MessageIterator := {}

end MessageQueue

namespace MessageHeap

def dereference (s : MessageHeap) (it : MessageIterator) : Option Text :=
  (s.nodes it.message).map MessageNode.getData

def increment (s : MessageHeap) (it : MessageIterator) : Option MessageIterator :=
  (s.nodes it.message).map fun m => ⟨m.getNext⟩

/-- The texts that a loop meets from an iterator up to `end()`. -/
def iterate (s : MessageHeap) : Nat → MessageIterator → Option (List Text)
  | 0, _ => none
  | fuel + 1, it =>
    if it = MessageQueue.past then some []
    else (s.dereference it).bind fun text => (s.increment it).bind fun next =>
      (s.iterate fuel next).map (text :: ·)

/-- The loop ends, and these are the texts it meets. -/
def Meets (s : MessageHeap) (it : MessageIterator) (texts : List Text) : Prop :=
  ∀ fuel, texts.length < fuel → s.iterate fuel it = some texts

/-- The queue that has the node of an iterator. -/
def holder (s : MessageHeap) (it : MessageIterator) : Option Nat :=
  (List.range s.queues.length).find? fun i =>
    ((s.live i).bind (s.traverse (s.created + 1))).any fun ps => it.message ∈ ps

/-- What a step appends to the queue that has the node of an iterator. -/
def pushedBehind (it : MessageIterator) (s : MessageHeap) : QueueAction → List Text
  | .push i msg _ => if s.holder it = some i then [msg] else []
  | .construct | .pop _ | .moveConstruct _ | .moveAssign _ _ | .destroy _ => []

variable {s t : MessageHeap} {F F' : ListFamily Entry} {q : MessageQueue} {e : Entry}
  {es xs ys : List Entry} {it : MessageIterator}

theorem meets_of_linked (hl : Chain.Linked s.nodes MessageNode.getNext 0 p (es.map Entry.address))
    (hh : ∀ e ∈ es, Holds s.nodes e) (hs : ∀ e ∈ es, e.text.length < 2 ^ 16) :
    s.Meets ⟨p⟩ (es.map Entry.text) := by
  intro fuel hf
  rw [List.length_map] at hf
  induction es generalizing p fuel with
  | nil =>
    obtain rfl : p = 0 := hl
    cases fuel with
    | zero => cases hf
    | succ fuel => rfl
  | cons e es ih =>
    obtain ⟨rfl, hz, m, hm, hl⟩ := hl
    obtain ⟨he, hes⟩ := List.forall_mem_cons.1 hh
    obtain ⟨hse, hses⟩ := List.forall_mem_cons.1 hs
    cases fuel with
    | zero => cases hf
    | succ fuel =>
      have hne : (⟨e.address⟩ : MessageIterator) ≠ MessageQueue.past :=
        fun hp => hz (congrArg MessageIterator.message hp)
      have hrest := ih hl hes hses fuel (Nat.lt_of_succ_lt_succ hf)
      rw [iterate, if_neg hne, dereference, he.getData hse, Option.bind_some, increment, hm,
        Option.map_some, Option.bind_some, hrest]
      rfl

theorem Represents.meets (h : Represents s F) (hs : F.All fun e => e.text.length < 2 ^ 16)
    (he : F.live i = some (xs ++ e :: ys)) :
    s.Meets ⟨e.address⟩ (e.text :: ys.map Entry.text) := by
  have hi := h.isSome_live i
  rw [he] at hi
  obtain ⟨q, hq⟩ := Option.isSome_iff_exists.1 hi
  have hc := h.chained i q _ hq he
  have hl := hc.linked
  rw [List.map_append] at hl
  obtain ⟨p, -, hl⟩ := Chain.segment_append.1 hl
  obtain rfl := hl.1
  have hmem (x : Entry) (hx : x ∈ e :: ys) : x ∈ xs ++ e :: ys := List.mem_append_right _ hx
  exact meets_of_linked hl (fun x hx => hc.holds x (hmem x hx)) fun x hx => hs i _ he x (hmem x hx)

theorem Represents.traverse (h : Represents s F) (hq : s.live i = some q)
    (he : F.live i = some es) : s.traverse (s.created + 1) q = some (es.map Entry.address) := by
  apply Chain.walk_of_linked (h.chained i q es hq he).linked
  rw [List.length_map]
  exact Nat.lt_succ_of_le (h.length_le he).1

theorem Represents.any_live (h : Represents s F) (i : Nat) :
    ((s.live i).bind (s.traverse (s.created + 1))).any (fun ps => it.message ∈ ps) = true ↔
      ∃ es, F.live i = some es ∧ it.message ∈ es.map Entry.address := by
  have hs := h.isSome_live i
  cases hq : s.live i with
  | none =>
    rw [hq] at hs
    rw [Option.not_isSome_iff_eq_none.1 (Bool.eq_false_iff.1 hs.symm)]
    exact iff_of_false (fun hf => nomatch hf) (fun ⟨_, hf, _⟩ => nomatch hf)
  | some q =>
    obtain ⟨es, he, -⟩ := h.exists_live hq
    rw [Option.bind_some, h.traverse hq he, he]
    simp

theorem Represents.holder_eq_some (h : Represents s F) : s.holder it = some i ↔
    ∃ es, F.live i = some es ∧ it.message ∈ es.map Entry.address := by
  rw [holder, List.find?_range_eq_some, h.any_live]
  refine ⟨fun hi => hi.1, fun hi => ⟨hi, ?_, fun j hj => ?_⟩⟩
  · obtain ⟨es, he, -⟩ := hi
    have hlen : s.queues.length = F.length := by simpa using congrArg List.length h.alive
    rw [List.mem_range, hlen]
    exact (List.getElem?_eq_some_iff.1 (Option.join_eq_some_iff.1 he)).1
  · obtain ⟨es, he, hm⟩ := hi
    rw [Bool.not_eq_true', Bool.eq_false_iff, ne_eq, h.any_live]
    rintro ⟨fs, hf, hm'⟩
    exact h.not_mem he hf (Nat.ne_of_gt hj) hm' hm

/-- The second heap comes from the first. -/
def Later (s t : MessageHeap) : Prop := s.created ≤ t.created ∧ s.log <+: t.log

theorem Later.trans {u : MessageHeap} (h : Later s t) (h' : Later t u) : Later s u :=
  ⟨h.1.trans h'.1, h.2.trans h'.2⟩

theorem Later.setQueue (h : Later s t) (i : Nat) (q : Option MessageQueue) :
    Later s (t.setQueue i q) := h

theorem later_getNext (h : s.getNext p = some (next, t)) : Later s t := by
  obtain ⟨m, -, hm⟩ := Option.map_eq_some_iff.1 h
  cases hm
  exact ⟨Nat.le_refl _, List.prefix_append _ _⟩

theorem later_destroyMessage (h : s.destroyMessage p = some t) : Later s t := by
  rw [destroyMessage] at h
  split at h
  · cases h
    exact ⟨Nat.le_refl _, List.prefix_refl _⟩
  · obtain ⟨m, -, rfl⟩ := Option.map_eq_some_iff.1 h
    exact ⟨Nat.le_refl _, List.prefix_append _ _⟩

theorem later_push (h : s.push q msg address = some (q', t)) : Later s t := by
  simp only [push] at h
  split at h
  · cases h
    exact ⟨Nat.le_succ _, List.prefix_refl _⟩
  · obtain ⟨u, hu, hq⟩ := Option.map_eq_some_iff.1 h
    cases hq
    obtain ⟨m, -, rfl⟩ := Option.map_eq_some_iff.1 hu
    exact ⟨Nat.le_succ _, List.prefix_refl _⟩

theorem later_pop (h : s.pop q = some (q', t)) : Later s t := by
  simp only [pop] at h
  split at h
  · cases h
    exact ⟨Nat.le_refl _, List.prefix_refl _⟩
  · obtain ⟨⟨next, u⟩, hu, h⟩ := Option.bind_eq_some_iff.1 h
    obtain ⟨v, hv, hq⟩ := Option.map_eq_some_iff.1 h
    cases hq
    exact (later_getNext hu).trans (later_destroyMessage hv)

theorem later_destroyLoop (h : destroyLoop fuel s p = some t) : Later s t := by
  induction fuel generalizing s p with
  | zero => cases h
  | succ fuel ih =>
    rw [destroyLoop] at h
    split at h
    · cases h
      exact ⟨Nat.le_refl _, List.prefix_refl _⟩
    · obtain ⟨⟨next, u⟩, hu, h⟩ := Option.bind_eq_some_iff.1 h
      obtain ⟨v, hv, h⟩ := Option.bind_eq_some_iff.1 h
      exact (later_getNext hu).trans ((later_destroyMessage hv).trans (ih h))

theorem later_step (h : s.step a = some t) : Later s t := by
  cases a with
  | construct =>
    cases h
    exact ⟨Nat.le_refl _, List.prefix_refl _⟩
  | push i msg address =>
    obtain ⟨q, -, h⟩ := Option.bind_eq_some_iff.1 h
    obtain ⟨⟨q', u⟩, hu, rfl⟩ := Option.map_eq_some_iff.1 h
    exact (later_push hu).setQueue i _
  | pop i =>
    obtain ⟨q, -, h⟩ := Option.bind_eq_some_iff.1 h
    obtain ⟨⟨q', u⟩, hu, rfl⟩ := Option.map_eq_some_iff.1 h
    exact (later_pop hu).setQueue i _
  | moveConstruct j =>
    obtain ⟨q, -, rfl⟩ := Option.map_eq_some_iff.1 h
    exact ⟨Nat.le_refl _, List.prefix_refl _⟩
  | moveAssign i j =>
    obtain ⟨q, -, h⟩ := Option.bind_eq_some_iff.1 h
    obtain ⟨q', -, rfl⟩ := Option.map_eq_some_iff.1 h
    exact ⟨Nat.le_refl _, List.prefix_refl _⟩
  | destroy i =>
    obtain ⟨q, -, h⟩ := Option.bind_eq_some_iff.1 h
    obtain ⟨u, hu, rfl⟩ := Option.map_eq_some_iff.1 h
    exact (later_destroyLoop hu).setQueue i _

theorem Later.destroyed (h : Later s t) : s.destroyed ⊆ t.destroyed :=
  (h.2.filterMap _).subset

/-- A node that no queue has any more has been destroyed. -/
theorem Represents.mem_destroyed {id : Nat} (h : Represents s F) (h' : Represents t F')
    (hl : Later s t) (hid : id ∈ ids F) (hn : id ∉ ids F') : id ∈ t.destroyed := by
  have hlt := List.mem_range.1 (h.accounted.subset (List.mem_append_left _ hid))
  have hm := h'.accounted.symm.subset (List.mem_range.2 (hlt.trans_le hl.1))
  exact (List.mem_append.1 hm).resolve_left hn

theorem Represents.not_mem_ids (h : Represents s F) (he : F.live i = some es)
    (hes : es = gone ++ o.getD []) (hx : e ∈ gone) : e.id ∉ ids (F.set i o) := by
  have hp : (ids F).Perm (gone.map Entry.id ++ ids (F.set i o)) :=
    Ledger.holdings_drop (Option.join_eq_some_iff.1 he) (by rw [hes]; exact List.map_append)
  have hn := hp.nodup_iff.1 h.nodup_ids.of_append_left
  exact fun hm => List.disjoint_of_nodup_append hn (List.mem_map_of_mem hx) hm

/-- The message is in some queue, and these texts are behind it. -/
def Placed (s : MessageHeap) (e : Entry) (behind : List Text) : Prop :=
  ∃ F i xs ys, Represents s F ∧ F.All (fun e => e.text.length < 2 ^ 16) ∧
    F.live i = some (xs ++ e :: ys) ∧ ys.map Entry.text = behind

theorem behind_entryOf (hi : s.holder it = some i) (a : QueueAction) :
    ((s.entryOf a).behind i).map Entry.text = s.pushedBehind it a := by
  cases a with
  | push j msg address =>
    simp only [entryOf, ListFamily.Operation.behind, pushedBehind, hi, Option.some.injEq,
      eq_comm (a := i)]
    split <;> rfl
  | _ => rfl

theorem Placed.step {behind : List Text} (h : s.Placed e behind) (ha : s.Allowed a ∧ a.Short)
    (hs : s.step a = some t) :
    t.Placed e (behind ++ pushedBehind ⟨e.address⟩ s a) ∨ e.id ∈ t.destroyed := by
  obtain ⟨F, i, xs, ys, hr, hall, hi, rfl⟩ := h
  obtain ⟨t', ht, hr'⟩ := hr.step ha.1
  obtain rfl := Option.some.inj (ht.symm.trans hs)
  have hmem : e ∈ xs ++ e :: ys := List.mem_append_right _ List.mem_cons_self
  have hid : e.id ∈ ids F :=
    Ledger.mem_holdings (Option.join_eq_some_iff.1 hi) (List.mem_map_of_mem hmem)
  have hholder : s.holder ⟨e.address⟩ = some i :=
    hr.holder_eq_some.2 ⟨_, hi, List.mem_map_of_mem hmem⟩
  rcases ListFamily.live_step hi (s.entryOf a) with ⟨j, zs, hj⟩ | ⟨hop, rfl⟩ | hop
  · left
    refine ⟨_, j, zs, _, hr', hall.step (carries_entryOf ha.2), hj, ?_⟩
    rw [List.map_append, behind_entryOf hholder]
  · right
    apply hr.mem_destroyed hr' (later_step hs) hid
    rw [hop, ListFamily.step, hi]
    have hdrop : [] ++ e :: ys = [e] ++ (some ys).getD [] := rfl
    exact hr.not_mem_ids hi hdrop List.mem_cons_self
  · right
    apply hr.mem_destroyed hr' (later_step hs) hid
    rw [hop, ListFamily.step]
    have hdrop : xs ++ e :: ys = (xs ++ e :: ys) ++ none.getD [] := (List.append_nil _).symm
    exact hr.not_mem_ids hi hdrop hmem

theorem Placed.meets {behind : List Text} (h : s.Placed e behind) :
    s.dereference ⟨e.address⟩ = some e.text ∧ s.Meets ⟨e.address⟩ (e.text :: behind) := by
  obtain ⟨F, i, xs, ys, hr, hall, hi, rfl⟩ := h
  refine ⟨?_, hr.meets hall hi⟩
  obtain ⟨q, hq⟩ := Option.isSome_iff_exists.1 ((hr.isSome_live i).trans (hi ▸ rfl))
  have hmem : e ∈ xs ++ e :: ys := List.mem_append_right _ List.mem_cons_self
  exact ((hr.chained i q _ hq hi).holds e hmem).getData (hall i _ hi e hmem)

theorem placed_of_holder (hshows : ShowsTexts s L) (hi : s.holder it = some i)
    (hm : s.nodes it.message = some m) :
    ∃ e behind, it = ⟨e.address⟩ ∧ m.id = e.id ∧ s.Placed e behind := by
  obtain ⟨F, hr, hall, -⟩ := hshows
  obtain ⟨es, he, hin⟩ := hr.holder_eq_some.1 hi
  obtain ⟨e, hmem, hp⟩ := List.mem_map.1 hin
  obtain ⟨q, hq⟩ := Option.isSome_iff_exists.1 ((hr.isSome_live i).trans (he ▸ rfl))
  obtain ⟨m', hm', hid, -⟩ := (hr.chained i q _ hq he).holds e hmem
  rw [hp, hm] at hm'
  cases hm'
  obtain ⟨xs, ys, rfl⟩ := List.append_of_mem hmem
  exact ⟨e, ys.map Entry.text, hp ▸ rfl, hid, F, i, xs, ys, hr, hall, he, rfl⟩

/-- An iterator keeps its place until its message is destroyed, whatever is pushed, popped, moved,
swapped and destroyed meanwhile: it points to the same text, and a loop from it meets what it met
before and then what has been pushed since to the queue that has the message. -/
theorem iterators_stable (acts rest : List QueueAction)
    (h : AllSteps step (fun s a => s.Allowed a ∧ a.Short) {} (acts ++ rest))
    (hs : exec step {} acts = some s) (ht : exec step s rest = some t)
    (hi : s.holder it = some i) (hm : s.nodes it.message = some m)
    (hlive : m.id ∉ t.destroyed) :
    t.dereference it = s.dereference it ∧
      ∃ texts, s.Meets it texts ∧
        t.Meets it (texts ++ collect step (pushedBehind it) s rest) := by
  have init : ∃ L, ShowsTexts {} L :=
    ⟨[], [], represents_init, fun _ _ hi => (by cases hi), rfl⟩
  have keepShows (s : MessageHeap) (a : QueueAction) (t : MessageHeap) (hs : ∃ L, ShowsTexts s L)
      (ha : s.Allowed a ∧ a.Short) (hst : s.step a = some t) : ∃ L, ShowsTexts t L := by
    obtain ⟨L, hshows⟩ := hs
    obtain ⟨t', ht', hshows'⟩ := hshows.step ha
    cases ht'.symm.trans hst
    exact ⟨_, hshows'⟩
  obtain ⟨L, hshows⟩ := exec_invariant_of_allSteps keepShows init h.of_append hs
  obtain ⟨e, behind, rfl, hid, hplaced⟩ := placed_of_holder hshows hi hm
  have keep (s : MessageHeap) (a : QueueAction) (t : MessageHeap) (behind : List Text)
      (hp : s.Placed e behind ∨ e.id ∈ s.destroyed) (ha : s.Allowed a ∧ a.Short)
      (hst : s.step a = some t) :
      t.Placed e (behind ++ pushedBehind ⟨e.address⟩ s a) ∨ e.id ∈ t.destroyed := by
    rcases hp with hp | hd
    · exact hp.step ha hst
    · exact .inr ((later_step hst).destroyed hd)
  have hlast := collect_invariant_of_allSteps
    (J := fun s behind => s.Placed e behind ∨ e.id ∈ s.destroyed) (pushedBehind ⟨e.address⟩)
    keep (.inl hplaced) (h.after hs) ht
  obtain ⟨hderef, hmeets⟩ := hplaced.meets
  obtain ⟨hderef', hmeets'⟩ := (hlast.resolve_right (hid ▸ hlive)).meets
  exact ⟨hderef'.trans hderef.symm, _, hmeets, hmeets'⟩

def twoMessages : List QueueAction := [.construct, .construct, .push 0 [1] 16, .push 0 [2] 32]

/-- Their queue is moved, loses the first message, gets two more and changes places with another. -/
def rearranging : List QueueAction :=
  [.moveConstruct 0, .pop 2, .push 2 [3] 16, .push 0 [4] 48, .moveAssign 1 2, .push 1 [5] 64,
    .destroy 2]

theorem iterators_stable_rearranging : ∃ s t, exec step {} twoMessages = some s ∧
    exec step s rearranging = some t ∧ t.dereference ⟨32⟩ = s.dereference ⟨32⟩ ∧
      ∃ texts, s.Meets ⟨32⟩ texts ∧
        t.Meets ⟨32⟩ (texts ++ collect step (pushedBehind ⟨32⟩) s rearranging) := by
  have first : (exec step {} twoMessages).map
      (fun s => (s.holder ⟨32⟩, (s.nodes 32).map MessageNode.id)) = some (some 0, some 1) := by
    decide +kernel
  have last : (exec step {} (twoMessages ++ rearranging)).map
      (fun t => decide (1 ∈ t.destroyed)) = some false := by decide +kernel
  obtain ⟨s, hs, he⟩ := Option.map_eq_some_iff.1 first
  obtain ⟨t, ht, hlive⟩ := Option.map_eq_some_iff.1 last
  obtain ⟨hi, hm⟩ := Prod.mk.inj he
  obtain ⟨m, hm, hid⟩ := Option.map_eq_some_iff.1 hm
  rw [exec_append, hs] at ht
  exact ⟨s, t, hs, ht, iterators_stable twoMessages rearranging (by decide +kernel) hs ht hi hm
    (hid ▸ of_decide_eq_false hlive)⟩

end MessageHeap
end Noctua.Messages
