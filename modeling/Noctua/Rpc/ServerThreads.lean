import Noctua.Rpc.TopicRegistry

namespace Noctua.Rpc
open Transition
set_option autoImplicit true

def RegistryPc.isReturned : RegistryPc → Bool
  | .returned _ => true
  | _ => false

/-- The threads that run the server, each with the call of the registry that it is in. -/
structure ServerThreads where
  registry : TopicRegistry := {}
  threads : List (Option Nat)

inductive ThreadAction where
  | invoke (thread : Nat) (op : RegistryOp)
  | advance (thread : Nat) (opens : Bool)

/-- The `thread_count` of `main`. -/
def threadCount (hardwareConcurrency : Nat) : Nat := max 1 hardwareConcurrency

namespace ServerThreads

def init (threadCount : Nat) : ServerThreads := { threads := List.replicate threadCount none }

def unreturned (r : TopicRegistry) (i : Nat) : Option Nat :=
  (r.calls[i]?.filter fun c => !c.pc.isReturned).map fun _ => i

/-- Nothing in a call of the registry suspends, so a thread that has begun one makes all its steps
before it turns to another session. -/
def step (s : ServerThreads) : ThreadAction → Option ServerThreads
  | .invoke k op =>
    if s.threads[k]? = some none then
      (s.registry.step (.invoke op)).map fun r =>
        ⟨r, s.threads.set k (some s.registry.calls.length)⟩
    else none
  | .advance k opens =>
    s.threads[k]?.join.bind fun i => (s.registry.step (.advance i opens)).map fun r =>
      ⟨r, s.threads.set k (unreturned r i)⟩

def OneTopicPerName (s : ServerThreads) : Prop := s.registry.OneTopicPerName

variable {s t : ServerThreads} {a : ThreadAction}

/-- Of one thread no two calls are under way. -/
structure OneAtATime (s : ServerThreads) : Prop where
  serialized : s.registry.Serialized
  single : s.threads.length ≤ 1
  running : ∀ (i : Nat) (c : RegistryCall), s.registry.calls[i]? = some c →
    c.pc.isReturned = false → some i ∈ s.threads

theorem oneAtATime_init (h : n ≤ 1) : OneAtATime (init n) where
  serialized := TopicRegistry.serialized_init
  single := by
    rw [init, List.length_replicate]
    exact h
  running := by
    intro i c hc
    cases hc

theorem not_returned_of_inside {pc : RegistryPc} (h : pc.inside = true) :
    pc.isReturned = false := by
  cases pc with
  | returned => cases h
  | _ => rfl

theorem OneAtATime.threads (h : OneAtATime s) (hk : s.threads[k]? = some o) :
    s.threads = [o] ∧ ∀ o', s.threads.set k o' = [o'] := by
  have hsingle := h.single
  generalize s.threads = threads at hk hsingle
  match threads, k, hk, hsingle with
  | [_], 0, rfl, _ => exact ⟨rfl, fun _ => rfl⟩
  | _ :: _ :: _, _, _, hlen => exact absurd hlen (by simp)

theorem OneAtATime.invoke (h : OneAtATime s) (hs : s.step (.invoke k op) = some t) :
    OneAtATime t := by
  obtain ⟨hk, hs⟩ := Option.ite_none_right_eq_some.1 hs
  obtain ⟨r, hr, rfl⟩ := Option.map_eq_some_iff.1 hs
  cases hr
  obtain ⟨hfree, hset⟩ := h.threads hk
  constructor
  case serialized => exact h.serialized.invoke op
  case single => rw [List.length_set]; exact h.single
  case running =>
    intro i c hc hpc
    rw [hset]
    rcases Nat.lt_trichotomy i s.registry.calls.length with hi | rfl | hi
    · have hold := h.running i c (by rwa [List.getElem?_append_left hi] at hc) hpc
      rw [hfree] at hold
      cases List.mem_singleton.1 hold
    · exact List.mem_singleton_self _
    · rw [List.getElem?_eq_none (by rw [List.length_append]; exact hi)] at hc
      cases hc

theorem OneAtATime.advance (h : OneAtATime s) (hs : s.step (.advance k opens) = some t) :
    OneAtATime t := by
  obtain ⟨i, hk, hs⟩ := Option.bind_eq_some_iff.1 hs
  obtain ⟨r, hr, rfl⟩ := Option.map_eq_some_iff.1 hs
  obtain ⟨hrun, hset⟩ := h.threads (Option.join_eq_some_iff.1 hk)
  have other {j : Nat} {d : RegistryCall} (hd : s.registry.calls[j]? = some d)
      (hpc : d.pc.isReturned = false) : j = i := by
    have hj := h.running j d hd hpc
    rw [hrun] at hj
    exact Option.some.inj (List.mem_singleton.1 hj)
  have hf : s.registry.FindsAlone (.advance i opens) := by
    intro c hc hpc j d hj hd hin
    exact (hj (other hd (not_returned_of_inside hin))).elim
  constructor
  case serialized => exact h.serialized.step hf hr
  case single => rw [List.length_set]; exact h.single
  case running =>
    intro j d hd hpc
    rw [hset]
    have hj : j = i := by
      by_contra hj
      obtain ⟨c, hc, hr⟩ := Option.bind_eq_some_iff.1 hr
      obtain ⟨⟨u, pc⟩, hn, rfl⟩ := Option.map_eq_some_iff.1 hr
      rcases (TopicRegistry.calls_setPc (TopicRegistry.next_cases hn) hc).1 hd with
        ⟨hj', -⟩ | ⟨-, hd⟩
      · exact hj hj'
      · exact hj (other hd hpc)
    subst hj
    rw [unreturned, hd]
    simp [Option.filter, hpc]

theorem OneAtATime.step (h : OneAtATime s) (hs : s.step a = some t) : OneAtATime t := by
  cases a with
  | invoke k op => exact h.invoke hs
  | advance k opens => exact h.advance hs

/-- The first two threads create the topic "a". -/
def bothCreate : List ThreadAction :=
  [.invoke 0 (.getOrCreateTopic [97]), .invoke 1 (.getOrCreateTopic [97]), .advance 0 true,
    .advance 1 true, .advance 0 true, .advance 1 true]

theorem bothCreate_inside (n : Nat) : ∃ s, exec step (init (n + 2)) bothCreate = some s ∧
    s.registry.calls = [⟨.getOrCreateTopic [97], .construct⟩,
      ⟨.getOrCreateTopic [97], .construct⟩] := ⟨_, rfl, rfl⟩

theorem not_oneTopicPerName (n : Nat) :
    ¬ Throughout step OneTopicPerName (init (n + 2)) bothCreate := by
  intro h
  obtain ⟨s, hr, hs⟩ := bothCreate_inside n
  have hro := ((h.last hr).apart 0 1 _ _ (by decide) (congrArg (·[0]?) hs)
    (congrArg (·[1]?) hs) rfl rfl).1
  cases hro

/-- Whatever the sessions ask of the registry and however the threads take turns, there is one topic
for each name and no two calls meet, exactly when the server has one thread. -/
theorem one_topic_per_name_iff (hardwareConcurrency : Nat) :
    (∀ acts, Throughout step OneTopicPerName (init (threadCount hardwareConcurrency)) acts) ↔
      hardwareConcurrency ≤ 1 := by
  constructor
  · intro h
    by_contra hn
    obtain ⟨n, rfl⟩ : ∃ n, hardwareConcurrency = n + 2 := ⟨hardwareConcurrency - 2, by omega⟩
    have hcount : threadCount (n + 2) = n + 2 := Nat.max_eq_right (Nat.le_add_left 1 (n + 1))
    exact not_oneTopicPerName n (hcount ▸ h bothCreate)
  · intro h acts
    apply (throughout_of_allSteps (C := fun _ _ => True) (fun _ _ _ hi _ hs => hi.step hs)
      (oneAtATime_init (Nat.max_le.2 ⟨Nat.le_refl 1, h⟩)) (allSteps_true _ acts)).mono
    exact fun s hs => hs.serialized.toOneTopicPerName

end ServerThreads
end Noctua.Rpc
