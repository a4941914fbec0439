import Mathlib.Data.List.Basic
import Mathlib.Data.List.Nodup
import Mathlib.Data.List.Infix

namespace Linearization
set_option autoImplicit true

structure SeqObject (S O R : Type) where
  init : S
  apply : S → O → S × R

/-- The events of a concurrent history; a call keeps its number from invocation to response. -/
inductive Event (O R : Type) where
  | invoke (id : Nat) (op : O)
  | respond (id : Nat) (op : O) (r : R)

structure Completed (O R : Type) where
  id : Nat
  op : O
  result : R

def Event.completed : Event O R → Option (Completed O R)
  | .invoke _ _ => none
  | .respond i op r => some ⟨i, op, r⟩

def Event.invoked : Event O R → Option Nat
  | .invoke i _ => some i
  | .respond _ _ _ => none

def responses (h : List (Event O R)) : List (Completed O R) := h.filterMap Event.completed

def invocations (h : List (Event O R)) : List Nat := h.filterMap Event.invoked

inductive Legal (obj : SeqObject S O R) : S → List (Completed O R) → S → Prop where
  | nil (s : S) : Legal obj s [] s
  | snoc {cs : List (Completed O R)} {c : Completed O R} {t u : S} :
      Legal obj s cs t → obj.apply t c.op = (u, c.result) → Legal obj s (cs ++ [c]) u

def Precedes (h : List (Event O R)) (i j : Nat) : Prop :=
  ∃ op r op', [Event.respond i op r, .invoke j op'].Sublist h

/-- A total order of the completed calls that respects real time and that the sequential
object accepts, ending in the state `t`. -/
structure IsLinearization (obj : SeqObject S O R) (h : List (Event O R))
    (order : List (Completed O R)) (t : S) : Prop where
  nodup : (order.map Completed.id).Nodup
  complete : ∀ c, c ∈ order ↔ Event.respond c.id c.op c.result ∈ h
  realTime : ∀ i j, Precedes h i j → j ∈ order.map Completed.id →
    [i, j].Sublist (order.map Completed.id)
  legal : Legal obj obj.init order t

/-- Every call is made once, answered at most once, and made before it is answered. -/
structure WellFormed (h : List (Event O R)) : Prop where
  invokedOnce : (invocations h).Nodup
  respondedOnce : ((responses h).map Completed.id).Nodup
  invokedFirst : ∀ g, g <+: h → ∀ c ∈ responses g, Event.invoke c.id c.op ∈ g

@[simp] theorem responses_append (g h : List (Event O R)) :
    responses (g ++ h) = responses g ++ responses h := List.filterMap_append

@[simp] theorem invocations_append (g h : List (Event O R)) :
    invocations (g ++ h) = invocations g ++ invocations h := List.filterMap_append

theorem mem_responses {h : List (Event O R)} {c : Completed O R} :
    c ∈ responses h ↔ Event.respond c.id c.op c.result ∈ h := by
  simp only [responses, List.mem_filterMap]
  constructor
  · rintro ⟨e, he, hc⟩
    cases e with
    | invoke => cases hc
    | respond => cases hc; exact he
  · exact fun he => ⟨_, he, rfl⟩

theorem mem_invocations {h : List (Event O R)} (he : Event.invoke i op ∈ h) :
    i ∈ invocations h := List.mem_filterMap.2 ⟨_, he, rfl⟩

theorem WellFormed.nil : WellFormed ([] : List (Event O R)) where
  invokedOnce := List.nodup_nil
  respondedOnce := List.nodup_nil
  invokedFirst := by
    intro g hg c hc
    rw [List.prefix_nil.1 hg] at hc
    cases hc

theorem WellFormed.invoke (hw : WellFormed h) (hi : i ∉ invocations h) :
    WellFormed (h ++ [.invoke i op]) where
  invokedOnce := by
    rw [invocations_append]
    exact List.Nodup.append hw.invokedOnce (List.nodup_singleton i) (List.disjoint_singleton.2 hi)
  respondedOnce := by
    rw [responses_append]
    exact (List.append_nil (responses h)).symm ▸ hw.respondedOnce
  invokedFirst := by
    intro g hg c hc
    rcases List.prefix_concat_iff.1 hg with rfl | hg
    · rw [responses_append] at hc
      have hc' : c ∈ responses h := (List.append_nil (responses h)) ▸ hc
      exact List.mem_append_left _ (hw.invokedFirst h List.prefix_rfl c hc')
    · exact hw.invokedFirst g hg c hc

theorem WellFormed.respond (hw : WellFormed h) (hi : Event.invoke i op ∈ h)
    (hr : i ∉ (responses h).map Completed.id) : WellFormed (h ++ [.respond i op r]) where
  invokedOnce := by
    rw [invocations_append]
    exact (List.append_nil (invocations h)).symm ▸ hw.invokedOnce
  respondedOnce := by
    rw [responses_append, List.map_append]
    exact List.Nodup.append hw.respondedOnce (List.nodup_singleton i)
      (List.disjoint_singleton.2 hr)
  invokedFirst := by
    intro g hg c hc
    rcases List.prefix_concat_iff.1 hg with rfl | hg
    · rw [responses_append] at hc
      rcases List.mem_append.1 hc with hc | hc
      · exact List.mem_append_left _ (hw.invokedFirst h List.prefix_rfl c hc)
      · rw [List.mem_singleton.1 hc]
        exact List.mem_append_left _ hi
    · exact hw.invokedFirst g hg c hc

theorem WellFormed.responses_realTime (hw : WellFormed h) (hp : Precedes h i j)
    (hj : j ∈ (responses h).map Completed.id) :
    [i, j].Sublist ((responses h).map Completed.id) := by
  obtain ⟨op, r, op', hs⟩ := hp
  obtain ⟨g, g', rfl, hi, hs⟩ := List.cons_sublist_iff.1 hs
  have hinv := List.singleton_sublist.1 hs
  have hi' : i ∈ (responses g).map Completed.id :=
    List.mem_map.2 ⟨⟨i, op, r⟩, mem_responses.2 hi, rfl⟩
  rw [responses_append, List.map_append] at hj ⊢
  rcases List.mem_append.1 hj with hj | hj
  · -- an answer before the invocation would mean that the call was made twice
    obtain ⟨c, hc, rfl⟩ := List.mem_map.1 hj
    have hn := hw.invokedOnce
    rw [invocations_append] at hn
    have hg := mem_invocations (hw.invokedFirst g (List.prefix_append g g') c hc)
    exact (List.disjoint_of_nodup_append hn hg (mem_invocations hinv)).elim
  · exact List.cons_sublist_iff.2 ⟨_, _, rfl, hi', List.singleton_sublist.2 hj⟩

/-- A history in which every call is answered from the state its response finds is
linearizable: each call takes effect at its response. -/
theorem IsLinearization.of_responses {obj : SeqObject S O R} (hw : WellFormed h)
    (hl : Legal obj obj.init (responses h) t) : IsLinearization obj h (responses h) t where
  nodup := hw.respondedOnce
  complete _ := mem_responses
  realTime _ _ := hw.responses_realTime
  legal := hl

end Linearization
