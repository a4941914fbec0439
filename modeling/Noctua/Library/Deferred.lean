import Noctua.Library.Linearization

namespace Linearization
set_option autoImplicit true

/-- The object with its answers put into other words. -/
def SeqObject.rephrase (obj : SeqObject S O R) (f : O → R → R') : SeqObject S O R' where
  init := obj.init
  apply s op := ((obj.apply s op).1, f op (obj.apply s op).2)

def Completed.rephrase (f : O → R → R') (c : Completed O R) : Completed O R' :=
  ⟨c.id, c.op, f c.op c.result⟩

/-- What the callers see of a history whose answers are put into other words and reach them
later than they are given, or not yet. -/
inductive Deferred (f : O → R → R') : List (Event O R) → List (Event O R') → Prop where
  | nil : Deferred f [] []
  | invoke (i : Nat) (op : O) (h : Deferred f given seen) :
      Deferred f (given ++ [.invoke i op]) (seen ++ [.invoke i op])
  | respond (i : Nat) (op : O) (r : R) (h : Deferred f given seen) :
      Deferred f (given ++ [.respond i op r]) seen
  | deliver (h : Deferred f given seen) (hr : Event.respond i op r ∈ given) :
      Deferred f given (seen ++ [.respond i op (f op r)])

/-- A total order of all calls that were answered and of some that were not yet, which respects
real time and which the sequential object accepts, ending in the state `t`. -/
structure IsCompletion (obj : SeqObject S O R) (h : List (Event O R))
    (order : List (Completed O R)) (t : S) : Prop where
  nodup : (order.map Completed.id).Nodup
  complete : ∀ c, Event.respond c.id c.op c.result ∈ h → c ∈ order
  invoked : ∀ c ∈ order, Event.invoke c.id c.op ∈ h
  realTime : ∀ i j, Precedes h i j → j ∈ order.map Completed.id →
    [i, j].Sublist (order.map Completed.id)
  legal : Legal obj obj.init order t

variable {f : O → R → R'} {given : List (Event O R)} {seen : List (Event O R')}

theorem map_rephrase_id (f : O → R → R') (order : List (Completed O R)) :
    (order.map (Completed.rephrase f)).map Completed.id = order.map Completed.id := by
  rw [List.map_map]
  rfl

theorem Legal.rephrase {obj : SeqObject S O R} (h : Legal obj s order t) :
    Legal (obj.rephrase f) s (order.map (Completed.rephrase f)) t := by
  induction h with
  | nil => exact .nil _
  | snoc hl ha ih =>
    rw [List.map_append]
    refine ih.snoc ?_
    simp only [SeqObject.rephrase, ha, Completed.rephrase]

theorem Deferred.mem_invoke (h : Deferred f given seen) :
    Event.invoke i op ∈ given ↔ Event.invoke i op ∈ seen := by
  induction h with
  | nil => exact iff_of_false List.not_mem_nil List.not_mem_nil
  | invoke j op' h ih =>
    rw [List.mem_append, List.mem_append, ih, List.mem_singleton, List.mem_singleton]
    simp only [Event.invoke.injEq]
  | respond j op' r h ih => rw [List.mem_append, ih, List.mem_singleton, or_iff_left nofun]
  | deliver h hr ih => rw [List.mem_append, ih, List.mem_singleton, or_iff_left nofun]

theorem Deferred.of_respond (h : Deferred f given seen) (hr : Event.respond i op r' ∈ seen) :
    ∃ r, r' = f op r ∧ Event.respond i op r ∈ given := by
  induction h with
  | nil => cases hr
  | invoke j op' h ih =>
    rcases List.mem_append.1 hr with hr | hr
    · obtain ⟨r, he, hm⟩ := ih hr
      exact ⟨r, he, List.mem_append_left _ hm⟩
    · cases List.mem_singleton.1 hr
  | respond j op' r h ih =>
    obtain ⟨r, he, hm⟩ := ih hr
    exact ⟨r, he, List.mem_append_left _ hm⟩
  | deliver h hm ih =>
    rcases List.mem_append.1 hr with hr | hr
    · exact ih hr
    · cases List.mem_singleton.1 hr
      exact ⟨_, rfl, hm⟩

theorem precedes_concat_respond {h : List (Event O R)} :
    Precedes (h ++ [.respond k op r]) i j ↔ Precedes h i j := by
  constructor
  · rintro ⟨op₁, r₁, op₂, hs⟩
    refine ⟨op₁, r₁, op₂, ?_⟩
    rw [← List.reverse_sublist, List.reverse_append] at hs
    rcases List.sublist_cons_iff.1 hs with hs | ⟨_, he, -⟩
    · exact List.reverse_sublist.1 hs
    · cases he
  · rintro ⟨op₁, r₁, op₂, hs⟩
    exact ⟨op₁, r₁, op₂, hs.trans (List.sublist_append_left _ _)⟩

theorem precedes_concat_invoke {h : List (Event O R)} :
    Precedes (h ++ [.invoke k op]) i j ↔
      Precedes h i j ∨ k = j ∧ ∃ op' r, Event.respond i op' r ∈ h := by
  constructor
  · rintro ⟨op₁, r₁, op₂, hs⟩
    rw [← List.reverse_sublist, List.reverse_append] at hs
    rcases List.sublist_cons_iff.1 hs with hs | ⟨rest, he, hs⟩
    · exact .inl ⟨op₁, r₁, op₂, List.reverse_sublist.1 hs⟩
    · cases he
      have hm := List.singleton_sublist.1 hs
      exact .inr ⟨rfl, op₁, r₁, List.mem_reverse.1 hm⟩
  · rintro (⟨op₁, r₁, op₂, hs⟩ | ⟨rfl, op₁, r₁, hm⟩)
    · exact ⟨op₁, r₁, op₂, hs.trans (List.sublist_append_left _ _)⟩
    · exact ⟨op₁, r₁, op, (List.singleton_sublist.2 hm).append (List.Sublist.refl _)⟩

theorem Deferred.precedes (h : Deferred f given seen) (hp : Precedes seen i j) :
    Precedes given i j := by
  induction h with
  | nil =>
    obtain ⟨_, _, _, hs⟩ := hp
    cases List.sublist_nil.1 hs
  | invoke k op h ih =>
    rw [precedes_concat_invoke] at hp ⊢
    rcases hp with hp | ⟨hk, op', r', hm⟩
    · exact .inl (ih hp)
    · obtain ⟨r, -, hm⟩ := h.of_respond hm
      exact .inr ⟨hk, op', r, hm⟩
  | respond k op r h ih => exact precedes_concat_respond.2 (ih hp)
  | deliver h hr ih => exact ih (precedes_concat_respond.1 hp)

/-- An order in which the calls take effect explains what the callers see as well. -/
theorem IsLinearization.deferred {obj : SeqObject S O R} (hl : IsLinearization obj given order t)
    (hw : WellFormed given) (hd : Deferred f given seen) :
    IsCompletion (obj.rephrase f) seen (order.map (Completed.rephrase f)) t where
  nodup := by
    rw [map_rephrase_id]
    exact hl.nodup
  complete := by
    intro c hc
    obtain ⟨r, he, hr⟩ := hd.of_respond hc
    refine List.mem_map.2 ⟨⟨c.id, c.op, r⟩, (hl.complete _).2 hr, ?_⟩
    rw [Completed.rephrase, ← he]
  invoked := by
    intro c hc
    obtain ⟨d, hm, rfl⟩ := List.mem_map.1 hc
    have hr := mem_responses.2 ((hl.complete d).1 hm)
    exact hd.mem_invoke.1 (hw.invokedFirst given List.prefix_rfl d hr)
  realTime := by
    intro i j hp hj
    rw [map_rephrase_id] at hj ⊢
    exact hl.realTime i j (hd.precedes hp) hj
  legal := hl.legal.rephrase

end Linearization
