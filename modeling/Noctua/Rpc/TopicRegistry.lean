import Noctua.Rpc.Handlers
import Noctua.UniqueMutex

namespace Noctua.Rpc
open Transition
set_option autoImplicit true

inductive RegistryOp where
  | getOrCreateTopic (topicName : Text)
  | getTopic (topicName : Text)
  deriving DecidableEq, Repr

def RegistryOp.topicName : RegistryOp → Text
  | .getOrCreateTopic name | .getTopic name => name

def RegistryOp.readOnly : RegistryOp → Bool
  | .getOrCreateTopic _ => false
  | .getTopic _ => true

/-- What a call does next. A `topic_t` is known by the number of its construction. -/
inductive RegistryPc where
  | lock
  | find
  | construct
  | emplace (topic : Nat)
  | ret (topic : Option Nat)
  | returned (topic : Option Nat)
  deriving DecidableEq, Repr

/-- Past the `find` and not yet returned. -/
def RegistryPc.inside : RegistryPc → Bool
  | .construct | .emplace _ | .ret _ => true
  | _ => false

structure RegistryCall where
  op : RegistryOp
  pc : RegistryPc := .lock
  deriving DecidableEq, Repr

/-- A `topic_registry_t` with the calls that the sessions make on it, and the names of all
topics, each with its wall writer, ever constructed. -/
structure TopicRegistry where
  mutex : UniqueMutex := {}
  topics : List (Text × Nat) := []
  constructed : List Text := []
  calls : List RegistryCall := []
  deriving DecidableEq, Repr

inductive RegistryAction where
  | invoke (op : RegistryOp)
  | advance (i : Nat) (opens : Bool)
  deriving DecidableEq, Repr

namespace TopicRegistry

def find (s : TopicRegistry) (name : Text) : Option Nat := s.topics.lookup name

/-- `emplace` leaves the map as it is where the key is there already. -/
def emplace (s : TopicRegistry) (name : Text) (topic : Nat) : TopicRegistry × Nat :=
  match s.find name with
  | some old => (s, old)
  | none => ({ s with topics := s.topics ++ [(name, topic)] }, topic)

/-- The next step of a call. The lock line makes an awaitable that nothing awaits, so it never
comes to a section of `mutex_`; a failed check in a constructor aborts. -/
def next (s : TopicRegistry) (c : RegistryCall) (opens : Bool) :
    Option (TopicRegistry × RegistryPc) :=
  match c.pc, c.op with
  | .lock, _ => some (s, .find)
  | .find, .getTopic name => some (s, .ret (s.find name))
  | .find, .getOrCreateTopic name =>
    match s.find name with
    | some topic => some (s, .ret (some topic))
    | none => some (s, .construct)
  | .construct, op =>
    if Registry.partitionsCount < invalidTopicId.toNat ∧ opens then
      some ({ s with constructed := s.constructed ++ [op.topicName] },
        .emplace s.constructed.length)
    else none
  | .emplace topic, op =>
    let (s, topic) := s.emplace op.topicName topic
    some (s, .ret (some topic))
  | .ret topic, _ => some (s, .returned topic)
  | .returned _, _ => none

def setPc (s : TopicRegistry) (i : Nat) (c : RegistryCall) (pc : RegistryPc) : TopicRegistry :=
  { s with calls := s.calls.set i { c with pc := pc } }

def step (s : TopicRegistry) : RegistryAction → Option TopicRegistry
  | .invoke op => some { s with calls := s.calls ++ [{ op := op }] }
  | .advance i opens =>
    s.calls[i]?.bind fun c => (s.next c opens).map fun (s, pc) => s.setPc i c pc

/-- No two calls are between their `find` and their return unless both are read-only, and no
name has its topic constructed twice. -/
structure OneTopicPerName (s : TopicRegistry) : Prop where
  apart : ∀ (i j : Nat) (c d : RegistryCall), i ≠ j → s.calls[i]? = some c →
    s.calls[j]? = some d → c.pc.inside = true → d.pc.inside = true →
      c.op.readOnly = true ∧ d.op.readOnly = true
  unique : s.constructed.Nodup

/-- A call comes to its `find` only while no other call is past its own, read-only calls apart. -/
def FindsAlone (s : TopicRegistry) : RegistryAction → Prop
  | .invoke _ => True
  | .advance i _ => ∀ c, s.calls[i]? = some c → c.pc = .find →
      ∀ (j : Nat) (d : RegistryCall), j ≠ i → s.calls[j]? = some d → d.pc.inside = true →
        c.op.readOnly = true ∧ d.op.readOnly = true

variable {s t u : TopicRegistry} {c d : RegistryCall}

/-- Everything that the next step of a call can be. -/
inductive Next (s : TopicRegistry) (c : RegistryCall) : TopicRegistry → RegistryPc → Prop where
  | lock (hpc : c.pc = .lock) : Next s c s .find
  | found (hpc : c.pc = .find) (ho : c.op.readOnly = true ∨ o ≠ none)
      (hf : s.find c.op.topicName = o) : Next s c s (.ret o)
  | missed (hpc : c.pc = .find) (ho : c.op.readOnly = false)
      (hf : s.find c.op.topicName = none) : Next s c s .construct
  | construct (hpc : c.pc = .construct) :
      Next s c { s with constructed := s.constructed ++ [c.op.topicName] }
        (.emplace s.constructed.length)
  | emplace (hpc : c.pc = .emplace topic) :
      Next s c (s.emplace c.op.topicName topic).1
        (.ret (some (s.emplace c.op.topicName topic).2))
  | ret (hpc : c.pc = .ret topic) : Next s c s (.returned topic)

theorem next_cases (h : s.next c opens = some (t, pc)) : Next s c t pc := by
  rw [next] at h
  split at h
  case h_1 hpc =>
    cases h
    exact .lock hpc
  case h_2 name hpc hop =>
    cases h
    exact .found hpc (.inl (by rw [hop]; rfl)) (by rw [hop]; rfl)
  case h_3 name hpc hop =>
    split at h
    · rename_i topic hf
      cases h
      exact .found hpc (.inr (Option.some_ne_none _)) (by rw [hop]; exact hf)
    · rename_i hf
      cases h
      exact .missed hpc (by rw [hop]; rfl) (by rw [hop]; exact hf)
  case h_4 hpc =>
    obtain ⟨-, h⟩ := Option.ite_none_right_eq_some.1 h
    cases h
    exact .construct hpc
  case h_5 topic hpc =>
    cases h
    exact .emplace hpc
  case h_6 topic hpc =>
    cases h
    exact .ret hpc
  case h_7 => cases h

@[simp] theorem emplace_calls (s : TopicRegistry) (name : Text) (topic : Nat) :
    (s.emplace name topic).1.calls = s.calls := by
  rw [emplace]
  split <;> rfl

@[simp] theorem emplace_constructed (s : TopicRegistry) (name : Text) (topic : Nat) :
    (s.emplace name topic).1.constructed = s.constructed := by
  rw [emplace]
  split <;> rfl

theorem find_emplace_self (s : TopicRegistry) (name : Text) (topic : Nat) :
    (s.emplace name topic).1.find name = some (s.emplace name topic).2 := by
  rw [emplace]
  split
  · assumption
  · rename_i hf
    rw [find, List.lookup_append, ← find, hf, List.lookup_cons_self, Option.none_or]

theorem find_emplace_of_found (hf : s.find name ≠ none) (other : Text) (topic : Nat) :
    (s.emplace other topic).1.find name ≠ none := by
  rw [emplace]
  split
  · exact hf
  · obtain ⟨x, hx⟩ := Option.ne_none_iff_exists'.1 hf
    rw [find, List.lookup_append, ← find, hx, Option.some_or]
    exact Option.some_ne_none x

theorem Next.calls (hn : Next s c t pc) : t.calls = s.calls := by
  cases hn with
  | emplace => exact emplace_calls ..
  | _ => rfl

theorem calls_setPc (hn : Next s c t pc) (hc : s.calls[i]? = some c) :
    (t.setPc i c pc).calls[j]? = some d ↔
      j = i ∧ d = { c with pc := pc } ∨ j ≠ i ∧ s.calls[j]? = some d := by
  have hi : i < s.calls.length := (List.getElem?_eq_some_iff.1 hc).1
  rw [setPc, hn.calls]
  by_cases hj : j = i
  · subst hj
    rw [List.getElem?_set_self hi]
    simp [eq_comm]
  · rw [List.getElem?_set_ne (Ne.symm hj)]
    simp [hj]

theorem calls_invoke {j : Nat} : (s.calls ++ [{ op := op }])[j]? = some d →
    s.calls[j]? = some d ∨ d = { op := op } := by
  intro h
  rcases Nat.lt_or_ge j s.calls.length with hj | hj
  · rw [List.getElem?_append_left hj] at h
    exact .inl h
  · rw [List.getElem?_append_right hj] at h
    exact .inr (List.mem_singleton.1 (List.mem_of_getElem? h))

/-- The calls at `construct` and `emplace` have missed a name that is nowhere registered. -/
structure Serialized (s : TopicRegistry) : Prop extends OneTopicPerName s where
  writers : ∀ (i : Nat) (c : RegistryCall), s.calls[i]? = some c → c.pc.inside = true →
    c.op.readOnly = true → ∃ topic, c.pc = .ret topic
  registered : ∀ name ∈ s.constructed, s.find name ≠ none ∨ ∃ (i : Nat) (c : RegistryCall)
    (topic : Nat), s.calls[i]? = some c ∧ c.pc = .emplace topic ∧ c.op.topicName = name
  absent : ∀ (i : Nat) (c : RegistryCall), s.calls[i]? = some c → c.pc = .construct →
    c.op.topicName ∉ s.constructed

theorem serialized_init : Serialized {} where
  apart := by
    intro i j c d _ hc
    cases hc
  unique := .nil
  writers := by
    intro i c hc
    cases hc
  registered := by
    intro name hn
    cases hn
  absent := by
    intro i c hc
    cases hc

theorem Serialized.invoke (h : Serialized s) (op : RegistryOp) :
    Serialized { s with calls := s.calls ++ [{ op := op }] } where
  apart := by
    intro i j c d hij hc hd hic hid
    rcases calls_invoke hc with hc | rfl
    · rcases calls_invoke hd with hd | rfl
      · exact h.apart i j c d hij hc hd hic hid
      · cases hid
    · cases hic
  unique := h.unique
  writers := by
    intro i c hc hi
    rcases calls_invoke hc with hc | rfl
    · exact h.writers i c hc hi
    · cases hi
  registered := by
    intro name hn
    apply (h.registered name hn).imp_right
    rintro ⟨i, c, topic, hc, hpc, ho⟩
    have hi := (List.getElem?_eq_some_iff.1 hc).1
    exact ⟨i, c, topic, (List.getElem?_append_left hi).trans hc, hpc, ho⟩
  absent := by
    intro i c hc hpc
    rcases calls_invoke hc with hc | rfl
    · exact h.absent i c hc hpc
    · cases hpc

/-- While a call is about to construct or emplace a topic, no other call is inside. -/
theorem Serialized.alone {i j : Nat} (h : Serialized s) (hc : s.calls[i]? = some c)
    (hpc : c.pc = .construct ∨ ∃ topic, c.pc = .emplace topic) (hj : j ≠ i)
    (hd : s.calls[j]? = some d) : d.pc.inside = false := by
  have hi : c.pc.inside = true := by
    rcases hpc with hpc | ⟨topic, hpc⟩ <;> rw [hpc] <;> rfl
  cases hid : d.pc.inside with
  | false => rfl
  | true =>
    obtain ⟨topic, hret⟩ := h.writers i c hc hi (h.apart i j c d hj.symm hc hd hi hid).1
    rcases hpc with hpc | ⟨_, hpc⟩ <;> cases hpc.symm.trans hret

theorem Serialized.moved_apart {i j : Nat} (h : Serialized s) (hc : s.calls[i]? = some c)
    (hn : Next s c t pc) (hf : FindsAlone s (.advance i opens)) (hi : pc.inside = true)
    (hj : j ≠ i) (hd : s.calls[j]? = some d) (hid : d.pc.inside = true) :
    c.op.readOnly = true ∧ d.op.readOnly = true := by
  cases hn with
  | found hpc | missed hpc => exact hf c hc hpc j d hj hd hid
  | construct hpc => exact h.apart i j c d hj.symm hc hd (by rw [hpc]; rfl) hid
  | emplace hpc => exact h.apart i j c d hj.symm hc hd (by rw [hpc]; rfl) hid
  | lock | ret => cases hi

theorem Serialized.fresh {i : Nat} (h : Serialized s) (hc : s.calls[i]? = some c)
    (hf : FindsAlone s (.advance i opens)) (hpc : c.pc = .find) (ho : c.op.readOnly = false)
    (hnone : s.find c.op.topicName = none) : c.op.topicName ∉ s.constructed := by
  intro hmem
  obtain ⟨j, d, topic, hd, hdpc, -⟩ := (h.registered _ hmem).resolve_left (not_not_intro hnone)
  have hj : j ≠ i := by
    rintro rfl
    obtain rfl := Option.some.inj (hc.symm.trans hd)
    cases hpc.symm.trans hdpc
  have hr := (hf c hc hpc j d hj hd (by rw [hdpc]; rfl)).1
  cases ho.symm.trans hr

theorem Serialized.registered_next {i : Nat} (h : Serialized s) (hc : s.calls[i]? = some c)
    (hn : Next s c t pc) (hmem : name ∈ t.constructed) :
    t.find name ≠ none ∨ ∃ (j : Nat) (d : RegistryCall) (topic : Nat),
      (t.setPc i c pc).calls[j]? = some d ∧ d.pc = .emplace topic ∧ d.op.topicName = name := by
  have keep (hold : name ∈ s.constructed) (hpc : ∀ topic, c.pc ≠ .emplace topic) :
      s.find name ≠ none ∨ ∃ (j : Nat) (d : RegistryCall) (topic : Nat),
        (t.setPc i c pc).calls[j]? = some d ∧ d.pc = .emplace topic ∧ d.op.topicName = name := by
    apply (h.registered name hold).imp_right
    rintro ⟨j, d, topic, hd, hdpc, ho⟩
    refine ⟨j, d, topic, (calls_setPc hn hc).2 (.inr ⟨?_, hd⟩), hdpc, ho⟩
    rintro rfl
    obtain rfl := Option.some.inj (hc.symm.trans hd)
    exact hpc topic hdpc
  cases hn with
  | lock hpc | found hpc | missed hpc | ret hpc =>
    exact keep hmem fun _ he => by cases hpc.symm.trans he
  | construct hpc =>
    rcases List.mem_append.1 hmem with hold | hnew
    · exact keep hold fun _ he => by cases hpc.symm.trans he
    · cases List.mem_singleton.1 hnew
      exact .inr ⟨i, _, _, (calls_setPc (.construct hpc) hc).2 (.inl ⟨rfl, rfl⟩), rfl, rfl⟩
  | @emplace topic hpc =>
    rw [emplace_constructed] at hmem
    left
    rcases h.registered name hmem with hf | ⟨j, d, topic', hd, hdpc, ho⟩
    · exact find_emplace_of_found hf _ _
    · have hj : j = i := by
        by_contra hj
        have hi := h.alone hc (.inr ⟨topic, hpc⟩) hj hd
        rw [hdpc] at hi
        cases hi
      subst hj
      obtain rfl := Option.some.inj (hc.symm.trans hd)
      rw [← ho, find_emplace_self]
      exact Option.some_ne_none _

theorem Serialized.advance {i : Nat} (h : Serialized s) (hc : s.calls[i]? = some c)
    (hn : Next s c t pc) (hf : FindsAlone s (.advance i opens)) :
    Serialized (t.setPc i c pc) := by
  constructor
  case toOneTopicPerName =>
    constructor
    case apart =>
      intro j k x y hjk hx hy hix hiy
      rcases (calls_setPc hn hc).1 hx with ⟨rfl, rfl⟩ | ⟨hj, hx'⟩
      · rcases (calls_setPc hn hc).1 hy with ⟨rfl, -⟩ | ⟨hk, hy'⟩
        · exact (hjk rfl).elim
        · exact h.moved_apart (c := c) hc hn hf hix hk hy' hiy
      · rcases (calls_setPc hn hc).1 hy with ⟨rfl, rfl⟩ | ⟨hk, hy'⟩
        · exact (h.moved_apart (c := c) hc hn hf hiy hj hx' hix).symm
        · exact h.apart j k x y hjk hx' hy' hix hiy
    case unique =>
      change t.constructed.Nodup
      cases hn with
      | construct hpc => exact List.concat_eq_append ▸ h.unique.concat (h.absent i c hc hpc)
      | emplace => exact (emplace_constructed ..).symm ▸ h.unique
      | _ => exact h.unique
  case writers =>
    intro j d hd hi ho
    rcases (calls_setPc hn hc).1 hd with ⟨rfl, rfl⟩ | ⟨-, hd⟩
    · cases hn with
      | found | emplace => exact ⟨_, rfl⟩
      | missed _ hro => cases hro.symm.trans ho
      | construct hpc =>
        obtain ⟨topic, hret⟩ := h.writers j c hc (by rw [hpc]; rfl) ho
        cases hpc.symm.trans hret
      | lock | ret => cases hi
    · exact h.writers j d hd hi ho
  case registered =>
    intro name hmem
    exact h.registered_next hc hn hmem
  case absent =>
    intro j d hd hpc
    change d.op.topicName ∉ t.constructed
    rcases (calls_setPc hn hc).1 hd with ⟨rfl, rfl⟩ | ⟨hj, hd'⟩
    · cases hn with
      | missed hfind ho hnone => exact h.fresh (c := c) hc hf hfind ho hnone
      | _ => cases hpc
    · cases hn with
      | construct hcpc =>
        have hi := h.alone hc (.inl hcpc) hj hd'
        rw [hpc] at hi
        cases hi
      | emplace => exact (emplace_constructed ..).symm ▸ h.absent j d hd' hpc
      | _ => exact h.absent j d hd' hpc

theorem Serialized.step (h : Serialized s) (hf : FindsAlone s a) (hs : s.step a = some t) :
    Serialized t := by
  cases a with
  | invoke op =>
    cases hs
    exact h.invoke op
  | advance i opens =>
    obtain ⟨c, hc, hs⟩ := Option.bind_eq_some_iff.1 hs
    obtain ⟨⟨u, pc⟩, hn, rfl⟩ := Option.map_eq_some_iff.1 hs
    exact h.advance hc (next_cases hn) hf

theorem next_emplace (s : TopicRegistry) (op : RegistryOp) (topic : Nat) (opens : Bool) :
    s.next ⟨op, .emplace topic⟩ opens = some ((s.emplace op.topicName topic).1,
      .ret (some (s.emplace op.topicName topic).2)) := rfl

def SameNames (s : TopicRegistry) (reg : Registry) : Prop :=
  ∀ name, (s.find name).isSome = (reg.getTopic name).isSome

theorem exec_advance {i : Nat} {P : TopicRegistry → Prop} (hc : s.calls[i]? = some c)
    (hn : s.next c opens = some (t, pc))
    (h : (t.setPc i c pc).calls[i]? = some { c with pc := pc } →
      ∃ k u, exec step (t.setPc i c pc) (List.replicate k (.advance i opens)) = some u ∧ P u) :
    ∃ k u, exec step s (List.replicate k (.advance i opens)) = some u ∧ P u := by
  obtain ⟨k, u, hk, hu⟩ := h ((calls_setPc (next_cases hn) hc).2 (.inl ⟨rfl, rfl⟩))
  refine ⟨k + 1, u, exec_cons_some.2 ⟨t.setPc i c pc, ?_, hk⟩, hu⟩
  rw [step, hc, Option.bind_some, hn]
  rfl

theorem next_found (hf : s.find name = some topic) (opens : Bool) :
    s.next ⟨.getOrCreateTopic name, .find⟩ opens = some (s, .ret (some topic)) := by
  simp only [next, hf]

theorem next_missed (hf : s.find name = none) (opens : Bool) :
    s.next ⟨.getOrCreateTopic name, .find⟩ opens = some (s, .construct) := by
  simp only [next, hf]

theorem next_construct (s : TopicRegistry) (op : RegistryOp) : s.next ⟨op, .construct⟩ true =
    some ({ s with constructed := s.constructed ++ [op.topicName] },
      .emplace s.constructed.length) := by
  simp only [next]
  exact if_pos ⟨by decide, trivial⟩

theorem SameNames.emplace {reg : Registry} (h : SameNames s reg) (hf : s.find name = none)
    (hn : reg.getTopic name = none) (topic : Nat) :
    SameNames (s.emplace name topic).1
      (reg ++ [(name, Topic.init Registry.partitionsCount)]) := by
  intro other
  by_cases hne : other = name
  · subst hne
    rw [Registry.getTopic_append_self hn, find_emplace_self]
    rfl
  · rw [Registry.getTopic_append_ne hne, ← h other, TopicRegistry.emplace, hf]
    rw [find, List.lookup_append, ← find, List.lookup_cons, beq_false_of_ne hne]
    cases s.find other <;> rfl

theorem getOrCreateTopic_alone {i : Nat} {reg reg' : Registry}
    (hc : s.calls[i]? = some { op := .getOrCreateTopic name }) (hr : SameNames s reg)
    (ho : reg.getOrCreateTopic opens name = some reg') :
    ∃ k u, exec step s (List.replicate k (.advance i opens)) = some u ∧ SameNames u reg' ∧
      ∃ topic, u.calls[i]? = some ⟨.getOrCreateTopic name, .returned (some topic)⟩ := by
  rcases Registry.getOrCreateTopic_cases ho with ⟨rfl, hne⟩ | ⟨rfl, hnone, rfl⟩
  · obtain ⟨topic, hf⟩ : ∃ topic, s.find name = some topic := by
      rw [← Option.isSome_iff_exists, hr, Option.isSome_iff_ne_none]
      exact hne
    apply exec_advance hc rfl
    intro hc
    apply exec_advance hc (next_found (by exact hf) opens)
    intro hc
    apply exec_advance hc rfl
    intro hc
    exact ⟨0, _, rfl, hr, topic, hc⟩
  · have hf : s.find name = none := by
      rw [← Option.isNone_iff_eq_none, ← Option.not_isSome, hr, hnone]
      rfl
    apply exec_advance hc rfl
    intro hc
    apply exec_advance hc (next_missed (by exact hf) true)
    intro hc
    apply exec_advance hc (next_construct _ _)
    intro hc
    apply exec_advance hc (next_emplace _ _ _ _)
    intro hc
    apply exec_advance hc rfl
    intro hc
    refine ⟨0, _, rfl, ?_, _, hc⟩
    exact SameNames.emplace (by exact hr) (by exact hf) hnone _

/-- Two sessions create the topic "a". -/
theorem one_topic_per_name_fails : ¬ ∀ acts, Throughout step OneTopicPerName {} acts := by
  intro h
  have hx := h [.invoke (.getOrCreateTopic [97]), .invoke (.getOrCreateTopic [97]),
    .advance 0 true, .advance 1 true, .advance 0 true, .advance 1 true, .advance 0 true,
    .advance 1 true]
  exact absurd (hx.last rfl).unique (by decide)

end TopicRegistry
end Noctua.Rpc
