import Noctua.Library.Execution
import Noctua.Library.Ledger
import Mathlib.Data.List.Range

namespace Noctua
open Transition
set_option autoImplicit true

/-- `lock_guard_t` of `unique_mutex_t`, and the two guards of `shared_mutex_t`. -/
inductive GuardClass where
  | lockGuard
  | writeLockGuard
  | readLockGuard
  deriving DecidableEq, Repr

/-- A method of a mutex that takes a lock back. -/
inductive UnlockMethod where
  | uniqueUnlock
  | sharedMutexUnlock
  | sharedMutexUnlockShared
  deriving DecidableEq, Repr

def GuardClass.unlockMethod : GuardClass → UnlockMethod
  | .lockGuard => .uniqueUnlock
  | .writeLockGuard => .sharedMutexUnlock
  | .readLockGuard => .sharedMutexUnlockShared

/-- A pointer to a mutex, with the number of the grant of its lock that the pointer stands for. -/
structure MutexPtr where
  mutex : Nat
  grant : Nat
  deriving DecidableEq, Repr

/-- A guard of some class; `mutex_` is null once the lock has been given back or moved on. -/
structure Guard where
  guardClass : GuardClass
  mutex : Option MutexPtr
  deriving DecidableEq, Repr

structure UnlockCall where
  method : UnlockMethod
  mutex : Nat
  grant : Nat
  deriving DecidableEq, Repr

namespace Guard

def unlock (g : Guard) : Guard × List UnlockCall :=
  match g.mutex with
  | some p => ({ g with mutex := none }, [⟨g.guardClass.unlockMethod, p.mutex, p.grant⟩])
  | none => (g, [])

/-- `std::exchange(other.mutex_, nullptr)`: the pointer, and what is left of the other guard. -/
def exchange (other : Guard) : Option MutexPtr × Guard :=
  (other.mutex, { other with mutex := none })

end Guard

/-- A program's guards, `none` for a destroyed one, the grants that guards have been created
from, and the calls that the guards have made. -/
structure Guards where
  objects : List (Option Guard) := []
  grants : List (GuardClass × Nat) := []
  calls : List UnlockCall := []
  deriving DecidableEq, Repr

inductive GuardAction where
  | create (guardClass : GuardClass) (mutex : Nat)
  | moveConstruct (other : Nat)
  | moveAssign (this other : Nat)
  | unlock (this : Nat)
  | destroy (this : Nat)
  deriving DecidableEq, Repr

namespace Guards

def live (s : Guards) (i : Nat) : Option Guard := s.objects[i]?.join

/-- There is no step for a guard that does not live, nor for a move between classes. -/
def step (s : Guards) : GuardAction → Option Guards
  | .create guardClass mutex =>
    some { s with
      objects := s.objects ++ [some ⟨guardClass, some ⟨mutex, s.grants.length⟩⟩]
      grants := s.grants ++ [(guardClass, mutex)] }
  | .moveConstruct j =>
    (s.live j).map fun other =>
      let (mutex, moved) := other.exchange
      { s with objects := s.objects.set j (some moved) ++ [some ⟨other.guardClass, mutex⟩] }
  | .moveAssign i j =>
    (s.live i).bind fun this => (s.live j).bind fun other =>
      if this.guardClass = other.guardClass then
        if i ≠ j then
          let (this, calls) := this.unlock
          let (mutex, moved) := other.exchange
          some { s with
            objects := (s.objects.set i (some { this with mutex := mutex })).set j (some moved)
            calls := s.calls ++ calls }
        else some s
      else none
  | .unlock i =>
    (s.live i).map fun this =>
      let (this, calls) := this.unlock
      { s with objects := s.objects.set i (some this), calls := s.calls ++ calls }
  | .destroy i =>
    (s.live i).map fun this =>
      let (_, calls) := this.unlock
      { s with objects := s.objects.set i none, calls := s.calls ++ calls }

def owns : Option Guard → List Nat
  | some g => g.mutex.toList.map MutexPtr.grant
  | none => []

def owned (s : Guards) : List Nat := Ledger.holdings owns s.objects

def released (s : Guards) : List Nat := s.calls.map UnlockCall.grant

/-- Each grant has one owner or has been released once, by the method of its mutex, and all have
been released once no guard lives. -/
structure ReleasesOnce (s : Guards) : Prop where
  soleOwner : ∀ i j g h p q, s.live i = some g → s.live j = some h → g.mutex = some p →
    h.mutex = some q → p.grant = q.grant → i = j
  accounted : (s.owned ++ s.released).Perm (List.range s.grants.length)
  itsMutex : ∀ c ∈ s.calls, ∃ guardClass, s.grants[c.grant]? = some (guardClass, c.mutex) ∧
    c.method = guardClass.unlockMethod
  noLeak : (∀ o ∈ s.objects, o = none) → s.released.Perm (List.range s.grants.length)

/-- The guard that an action makes give its lock back. -/
def releaser : GuardAction → Option Nat
  | .unlock i | .destroy i => some i
  | .moveAssign i j => if i = j then none else some i
  | .create _ _ | .moveConstruct _ => none

/-- What a step calls is for the grant that the guard it unlocks, overwrites or destroys owned. -/
def ReleasesOwn (s : Guards) (a : GuardAction) : Prop :=
  ∀ t, s.step a = some t → ∃ cs, t.calls = s.calls ++ cs ∧ ∀ c ∈ cs, ∃ i g p,
    releaser a = some i ∧ s.live i = some g ∧ g.mutex = some p ∧
      c = ⟨g.guardClass.unlockMethod, p.mutex, p.grant⟩

variable {s t : Guards}

/-- The calls of the mutex that `unlock` makes. -/
def unlockCalls (g : Guard) : List UnlockCall := g.unlock.2

theorem unlock_eq (g : Guard) : g.unlock = ({ g with mutex := none }, unlockCalls g) := by
  obtain ⟨c, p⟩ := g
  cases p <;> rfl

theorem unlock_grants (g : Guard) : (unlockCalls g).map UnlockCall.grant = owns (some g) := by
  obtain ⟨c, p⟩ := g
  cases p <;> rfl

theorem mem_unlockCalls {g : Guard} (hc : c ∈ unlockCalls g) :
    ∃ p, g.mutex = some p ∧ c = ⟨g.guardClass.unlockMethod, p.mutex, p.grant⟩ := by
  obtain ⟨k, p⟩ := g
  cases p with
  | none => cases hc
  | some p => exact ⟨p, rfl, List.mem_singleton.1 hc⟩

theorem live_eq_some : s.live i = some g ↔ s.objects[i]? = some (some g) := Option.join_eq_some_iff

/-- Everything that a member function of a guard does. -/
inductive Effect (s : Guards) : GuardAction → Guards → Prop where
  | create : Effect s (.create guardClass mutex)
      { s with
        objects := s.objects ++ [some ⟨guardClass, some ⟨mutex, s.grants.length⟩⟩]
        grants := s.grants ++ [(guardClass, mutex)] }
  | moveConstruct (hj : s.objects[j]? = some (some other)) : Effect s (.moveConstruct j)
      { s with objects := s.objects.set j (some { other with mutex := none }) ++ [some other] }
  | moveSelf (hi : s.objects[i]? = some (some this)) : Effect s (.moveAssign i i) s
  | moveAssign (hne : i ≠ j) (hi : s.objects[i]? = some (some this))
      (hj : s.objects[j]? = some (some other)) (hc : this.guardClass = other.guardClass) :
      Effect s (.moveAssign i j)
        { s with
          objects := (s.objects.set i (some other)).set j (some { other with mutex := none })
          calls := s.calls ++ unlockCalls this }
  | unlock (hi : s.objects[i]? = some (some this)) : Effect s (.unlock i)
      { s with
        objects := s.objects.set i (some { this with mutex := none })
        calls := s.calls ++ unlockCalls this }
  | destroy (hi : s.objects[i]? = some (some this)) : Effect s (.destroy i)
      { s with objects := s.objects.set i none, calls := s.calls ++ unlockCalls this }

theorem step_effect (hs : s.step a = some t) : Effect s a t := by
  cases a with
  | create guardClass mutex =>
    cases hs
    exact .create
  | moveConstruct j =>
    obtain ⟨other, hj, rfl⟩ := Option.map_eq_some_iff.1 hs
    exact .moveConstruct (live_eq_some.1 hj)
  | moveAssign i j =>
    simp only [step, unlock_eq, Guard.exchange] at hs
    obtain ⟨this, hi, hs⟩ := Option.bind_eq_some_iff.1 hs
    obtain ⟨other, hj, hs⟩ := Option.bind_eq_some_iff.1 hs
    obtain ⟨hc, hs⟩ := Option.ite_none_right_eq_some.1 hs
    by_cases hne : i ≠ j
    · rw [if_pos hne, Option.some.injEq] at hs
      subst hs
      rw [hc]
      exact .moveAssign hne (live_eq_some.1 hi) (live_eq_some.1 hj) hc
    · rw [if_neg hne, Option.some.injEq] at hs
      subst hs
      rw [← not_not.1 hne]
      exact .moveSelf (live_eq_some.1 hi)
  | unlock i =>
    simp only [step, unlock_eq] at hs
    obtain ⟨this, hi, rfl⟩ := Option.map_eq_some_iff.1 hs
    exact .unlock (live_eq_some.1 hi)
  | destroy i =>
    simp only [step, unlock_eq] at hs
    obtain ⟨this, hi, rfl⟩ := Option.map_eq_some_iff.1 hs
    exact .destroy (live_eq_some.1 hi)

/-- The pointer of a guard stands for a grant of this class on this mutex. -/
def Points (grants : List (GuardClass × Nat)) (g : Guard) : Prop :=
  ∀ p, g.mutex = some p → grants[p.grant]? = some (g.guardClass, p.mutex)

def Matches (grants : List (GuardClass × Nat)) (c : UnlockCall) : Prop :=
  ∃ guardClass, grants[c.grant]? = some (guardClass, c.mutex) ∧
    c.method = guardClass.unlockMethod

/-- The grants as a ledger, and what each pointer and each call stands for. -/
structure Kept (s : Guards) : Prop where
  balanced : Ledger.Balanced (List.range s.grants.length) [] s.owned s.released
    (List.range s.grants.length)
  pointers : ∀ g, some g ∈ s.objects → Points s.grants g
  itsMutex : ∀ c ∈ s.calls, Matches s.grants c

theorem kept_init : Kept {} :=
  ⟨Ledger.balanced_nil, fun _ hg => (by cases hg), fun _ hc => (by cases hc)⟩

theorem Kept.releasesOnce (h : Kept s) : ReleasesOnce s where
  soleOwner i j g k p q hi hj hp hq he := by
    have hn := (h.balanced.states.nodup_iff.2 List.nodup_range).of_append_right.of_append_left
    apply Ledger.holdings_sole hn (live_eq_some.1 hi) (live_eq_some.1 hj) (x := p.grant)
    · simp [owns, hp]
    · simp [owns, hq, he]
  accounted := h.balanced.states
  itsMutex := h.itsMutex
  noLeak hn := by
    have ho : s.owned = [] := by
      apply List.flatMap_eq_nil_iff.2
      intro o ho
      rw [hn o ho]
      rfl
    have hs := h.balanced.states
    rwa [List.nil_append, ho, List.nil_append] at hs

section
variable {gs : List (GuardClass × Nat)} {x y : GuardClass × Nat} {g : Guard} {n : Nat}

theorem getElem?_concat (h : gs[n]? = some x) : (gs ++ [y])[n]? = some x := by
  rw [List.getElem?_append_left (List.getElem?_eq_some_iff.1 h).1, h]

theorem Points.concat (h : Points gs g) : Points (gs ++ [x]) g :=
  fun p hp => getElem?_concat (h p hp)

theorem Points.fresh : Points (gs ++ [(k, m)]) ⟨k, some ⟨m, gs.length⟩⟩ := by
  intro p hp
  cases hp
  exact List.getElem?_concat_length

theorem Points.empty (ho : some { g with mutex := none } = some k) : Points gs k := by
  cases ho
  intro p hp
  cases hp

theorem points_set {xs : List (Option Guard)} (h : ∀ g, some g ∈ xs → Points gs g)
    (ho : ∀ g, o = some g → Points gs g) : ∀ g, some g ∈ xs.set i o → Points gs g := by
  intro g hg
  obtain hg | hg := List.mem_or_eq_of_mem_set hg
  · exact h g hg
  · exact ho g hg.symm

theorem Points.calls (h : Points gs g) (hc : c ∈ unlockCalls g) : Matches gs c := by
  obtain ⟨p, hp, rfl⟩ := mem_unlockCalls hc
  exact ⟨g.guardClass, h p hp, rfl⟩

end

theorem released_append (s : Guards) (hc : t.calls = s.calls ++ unlockCalls g) :
    t.released = s.released ++ owns (some g) := by
  rw [released, hc, List.map_append, unlock_grants, released]

theorem owned_release (hi : s.objects[i]? = some (some this)) (ho : owns o = []) :
    s.owned.Perm (owns (some this) ++ Ledger.holdings owns (s.objects.set i o)) :=
  Ledger.holdings_drop hi (by rw [ho, List.append_nil])

theorem Kept.release {i : Nat} (h : Kept s) (hi : s.objects[i]? = some (some this))
    (hg : t.grants = s.grants) (hc : t.calls = s.calls ++ unlockCalls this)
    (ho : s.owned.Perm (owns (some this) ++ t.owned))
    (hp : ∀ g, some g ∈ t.objects → Points s.grants g) : Kept t := by
  constructor
  case balanced =>
    rw [hg, released_append s hc]
    exact h.balanced.settle ho
  case pointers =>
    rw [hg]
    exact hp
  case itsMutex =>
    intro c hm
    rw [hg]
    rw [hc] at hm
    obtain hm | hm := List.mem_append.1 hm
    · exact h.itsMutex c hm
    · exact (h.pointers this (List.mem_of_getElem? hi)).calls hm

theorem Kept.create (h : Kept s) (k : GuardClass) (m : Nat) :
    Kept { s with
      objects := s.objects ++ [some ⟨k, some ⟨m, s.grants.length⟩⟩]
      grants := s.grants ++ [(k, m)] } := by
  constructor
  case balanced =>
    rw [List.length_append, List.length_singleton, List.range_succ, owned, Ledger.holdings_concat]
    exact h.balanced.admit (List.perm_append_singleton _ _)
  case pointers =>
    intro g hg
    obtain hg | hg := List.mem_append.1 hg
    · exact (h.pointers g hg).concat
    · cases List.mem_singleton.1 hg
      exact Points.fresh
  case itsMutex =>
    intro c hc
    obtain ⟨k', hk, hm⟩ := h.itsMutex c hc
    exact ⟨k', getElem?_concat hk, hm⟩

theorem Kept.step (h : Kept s) (hs : s.step a = some t) : Kept t := by
  cases step_effect hs with
  | create => exact h.create _ _
  | moveConstruct hj =>
    constructor
    case balanced => exact h.balanced.move (Ledger.holdings_transfer hj rfl).symm
    case pointers =>
      intro g hg
      obtain hg | hg := List.mem_append.1 hg
      · exact points_set h.pointers (fun _ => Points.empty) g hg
      · cases List.mem_singleton.1 hg
        exact h.pointers _ (List.mem_of_getElem? hj)
    case itsMutex => exact h.itsMutex
  | moveSelf => exact h
  | moveAssign hne hi hj =>
    apply h.release hi
    · rfl
    · rfl
    · exact Ledger.holdings_overwrite hne hi hj rfl
    · apply points_set
      · apply points_set h.pointers
        rintro g ⟨⟩
        exact h.pointers _ (List.mem_of_getElem? hj)
      · exact fun _ => Points.empty
  | unlock hi =>
    apply h.release hi
    · rfl
    · rfl
    · exact owned_release hi rfl
    · exact points_set h.pointers fun _ => Points.empty
  | destroy hi =>
    apply h.release hi
    · rfl
    · rfl
    · exact owned_release hi rfl
    · exact points_set h.pointers fun _ ho => (by cases ho)

theorem releasesOwn_of (hi : s.objects[i]? = some (some this)) (ha : releaser a = some i)
    (hc : t.calls = s.calls ++ unlockCalls this) :
    ∃ cs, t.calls = s.calls ++ cs ∧ ∀ c ∈ cs, ∃ i g p,
      releaser a = some i ∧ s.live i = some g ∧ g.mutex = some p ∧
        c = ⟨g.guardClass.unlockMethod, p.mutex, p.grant⟩ := by
  refine ⟨_, hc, fun c hm => ?_⟩
  obtain ⟨p, hp, he⟩ := mem_unlockCalls hm
  exact ⟨i, this, p, ha, live_eq_some.2 hi, hp, he⟩

theorem releasesOwn (s : Guards) (a : GuardAction) : ReleasesOwn s a := by
  intro t hs
  cases step_effect hs with
  | create | moveConstruct | moveSelf =>
    exact ⟨[], (List.append_nil _).symm, fun _ hc => (by cases hc)⟩
  | moveAssign hne hi => exact releasesOwn_of hi (if_neg hne) rfl
  | unlock hi => exact releasesOwn_of hi rfl rfl
  | destroy hi => exact releasesOwn_of hi rfl rfl

/-- Guards release each grant exactly once, in every program. -/
theorem guards_release_once (acts : List GuardAction) :
    Throughout step ReleasesOnce {} acts ∧ AllSteps step ReleasesOwn {} acts := by
  constructor
  · apply Throughout.mono (I := Kept) _ fun _ h => h.releasesOnce
    exact throughout_of_allSteps (fun _ _ _ h _ hs => h.step hs) kept_init (allSteps_true _ acts)
  · exact AllSteps.imp (I := fun _ => True) (C := fun _ _ => True) (fun _ _ _ _ _ _ => trivial)
      (fun s a _ _ => releasesOwn s a) trivial (allSteps_true _ acts)

end Guards
end Noctua
