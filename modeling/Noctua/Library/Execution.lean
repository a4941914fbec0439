import Mathlib.Data.List.Basic

namespace Transition
set_option autoImplicit true

/-- Take a list of actions in order; an action that is not enabled ends without a state. -/
def exec (step : σ → α → Option σ) : σ → List α → Option σ
  | s, [] => some s
  | s, a :: as => (step s a).bind fun t => exec step t as

/-- What is observed of the steps of a run, in order. -/
def collect (step : σ → α → Option σ) (observe : σ → α → List ε) : σ → List α → List ε
  | _, [] => []
  | s, a :: as => observe s a ++
    match step s a with
    | some t => collect step observe t as
    | none => []

def Throughout (step : σ → α → Option σ) (P : σ → Prop) : σ → List α → Prop
  | s, [] => P s
  | s, a :: as => P s ∧ ∀ t, step s a = some t → Throughout step P t as

def AllSteps (step : σ → α → Option σ) (C : σ → α → Prop) : σ → List α → Prop
  | _, [] => True
  | s, a :: as => C s a ∧ ∀ t, step s a = some t → AllSteps step C t as

instance decidableForallSome (o : Option σ) (P : σ → Prop) [∀ t, Decidable (P t)] :
    Decidable (∀ t, o = some t → P t) :=
  match o with
  | none => isTrue (fun _ h => by cases h)
  | some t => decidable_of_iff (P t)
      ⟨fun h _ he => Option.some.inj he ▸ h, fun h => h t rfl⟩

def decidableThroughout (step : σ → α → Option σ) (P : σ → Prop) [∀ s, Decidable (P s)] :
    ∀ s as, Decidable (Throughout step P s as)
  | s, [] => inferInstanceAs (Decidable (P s))
  | s, a :: as =>
    have := fun t => decidableThroughout step P t as
    inferInstanceAs (Decidable (P s ∧ ∀ t, step s a = some t → Throughout step P t as))

instance (step : σ → α → Option σ) (P : σ → Prop) [∀ s, Decidable (P s)] (s : σ)
    (as : List α) : Decidable (Throughout step P s as) := decidableThroughout step P s as

def decidableAllSteps (step : σ → α → Option σ) (C : σ → α → Prop)
    [∀ s a, Decidable (C s a)] : ∀ s as, Decidable (AllSteps step C s as)
  | _, [] => inferInstanceAs (Decidable True)
  | s, a :: as =>
    have := fun t => decidableAllSteps step C t as
    inferInstanceAs (Decidable (C s a ∧ ∀ t, step s a = some t → AllSteps step C t as))

instance (step : σ → α → Option σ) (C : σ → α → Prop) [∀ s a, Decidable (C s a)] (s : σ)
    (as : List α) : Decidable (AllSteps step C s as) := decidableAllSteps step C s as

section
variable {step : σ → α → Option σ} {I P : σ → Prop} {C D : σ → α → Prop}

theorem exec_cons (step : σ → α → Option σ) (s : σ) (a : α) (as : List α) :
    exec step s (a :: as) = (step s a).bind fun t => exec step t as := rfl

theorem exec_cons_some : exec step s (a :: as) = some u ↔
    ∃ t, step s a = some t ∧ exec step t as = some u := Option.bind_eq_some_iff

theorem exec_append (step : σ → α → Option σ) (s : σ) (as bs : List α) :
    exec step s (as ++ bs) = (exec step s as).bind fun t => exec step t bs := by
  induction as generalizing s with
  | nil => rfl
  | cons a as ih =>
    simp only [List.cons_append, exec_cons, Option.bind_assoc]
    congr 1
    funext t
    exact ih t

theorem exec_concat (step : σ → α → Option σ) (s : σ) (as : List α) (b : α) :
    exec step s (as ++ [b]) = (exec step s as).bind fun t => step t b := by
  rw [exec_append]
  congr 1
  funext t
  exact Option.bind_fun_some (step t b)

theorem Throughout.head (h : Throughout step P s as) : P s := by
  cases as with
  | nil => exact h
  | cons a as => exact h.1

theorem Throughout.last (h : Throughout step P s as) (hr : exec step s as = some t) : P t := by
  induction as generalizing s with
  | nil =>
    cases hr
    exact h
  | cons a as ih =>
    obtain ⟨u, hs, hu⟩ := exec_cons_some.1 hr
    exact ih (h.2 u hs) hu

theorem throughout_iff_reached : Throughout step P s as ↔
    ∀ bs t, bs <+: as → exec step s bs = some t → P t := by
  constructor
  · intro h bs t hp hr
    induction bs generalizing s as with
    | nil =>
      cases hr
      exact h.head
    | cons b bs ih =>
      cases as with
      | nil => cases List.prefix_nil.1 hp
      | cons a as =>
        obtain ⟨rfl, hp'⟩ := List.cons_prefix_cons.1 hp
        obtain ⟨u, hs, hu⟩ := exec_cons_some.1 hr
        exact ih (h.2 u hs) hp' hu
  · intro h
    induction as generalizing s with
    | nil => exact h [] s (List.prefix_refl []) rfl
    | cons a as ih =>
      refine ⟨h [] s List.nil_prefix rfl, fun t ht => ih ?_⟩
      intro bs u hp hu
      exact h (a :: bs) u (List.cons_prefix_cons.2 ⟨rfl, hp⟩) (exec_cons_some.2 ⟨t, ht, hu⟩)

/-- What holds of a state and of all that was observed before it. -/
theorem collect_invariant {J : σ → List ε → Prop} (observe : σ → α → List ε)
    (keep : ∀ s a t es, J s es → step s a = some t → J t (es ++ observe s a)) (hs : J s es)
    (hr : exec step s as = some t) : J t (es ++ collect step observe s as) := by
  induction as generalizing s es with
  | nil =>
    cases hr
    rw [collect, List.append_nil]
    exact hs
  | cons a as ih =>
    obtain ⟨u, ha, hu⟩ := exec_cons_some.1 hr
    simp only [collect, ha, ← List.append_assoc]
    exact ih (keep s a u es hs ha) hu

theorem collect_append (observe : σ → α → List ε) (bs : List α)
    (hr : exec step s as = some t) : collect step observe s (as ++ bs) =
      collect step observe s as ++ collect step observe t bs := by
  induction as generalizing s with
  | nil =>
    cases hr
    rfl
  | cons a as ih =>
    obtain ⟨u, ha, hu⟩ := exec_cons_some.1 hr
    simp only [List.cons_append, collect, ha, List.append_assoc, ih hu]

theorem throughout_of_allSteps (keep : ∀ s a t, I s → C s a → step s a = some t → I t)
    (hs : I s) (h : AllSteps step C s as) : Throughout step I s as := by
  induction as generalizing s with
  | nil => exact hs
  | cons a as ih => exact ⟨hs, fun t ht => ih (keep s a t hs h.1 ht) (h.2 t ht)⟩

theorem collect_invariant₂ {J : σ → List ε → List δ → Prop} (f : σ → α → List ε)
    (g : σ → α → List δ)
    (keep : ∀ s a t es ds, J s es ds → C s a → step s a = some t →
      J t (es ++ f s a) (ds ++ g s a))
    (hs : J s es ds) (h : AllSteps step C s as) (hr : exec step s as = some t) :
    J t (es ++ collect step f s as) (ds ++ collect step g s as) := by
  induction as generalizing s es ds with
  | nil =>
    cases hr
    simp only [collect, List.append_nil]
    exact hs
  | cons a as ih =>
    obtain ⟨u, ha, hu⟩ := exec_cons_some.1 hr
    simp only [collect, ha, ← List.append_assoc]
    exact ih (keep s a u es ds hs h.1 ha) (h.2 u ha) hu

theorem collect_invariant_of_allSteps {J : σ → List ε → Prop} (observe : σ → α → List ε)
    (keep : ∀ s a t es, J s es → C s a → step s a = some t → J t (es ++ observe s a))
    (hs : J s es) (h : AllSteps step C s as) (hr : exec step s as = some t) :
    J t (es ++ collect step observe s as) := by
  induction as generalizing s es with
  | nil =>
    cases hr
    rw [collect, List.append_nil]
    exact hs
  | cons a as ih =>
    obtain ⟨u, ha, hu⟩ := exec_cons_some.1 hr
    simp only [collect, ha, ← List.append_assoc]
    exact ih (keep s a u es hs h.1 ha) (h.2 u ha) hu

theorem Throughout.mono (h : Throughout step I s as) (hP : ∀ s, I s → P s) :
    Throughout step P s as := by
  induction as generalizing s with
  | nil => exact hP s h
  | cons a as ih => exact ⟨hP s h.1, fun t ht => ih (h.2 t ht)⟩

theorem allSteps_true (s : σ) (as : List α) : AllSteps step (fun _ _ => True) s as := by
  induction as generalizing s with
  | nil => trivial
  | cons a as ih => exact ⟨trivial, fun t _ => ih t⟩

theorem AllSteps.and_mem {M : α → Prop} (h : AllSteps step C s as) (hM : ∀ a ∈ as, M a) :
    AllSteps step (fun s a => C s a ∧ M a) s as := by
  induction as generalizing s with
  | nil => trivial
  | cons a as ih =>
    obtain ⟨ha, has⟩ := List.forall_mem_cons.1 hM
    exact ⟨⟨h.1, ha⟩, fun t ht => ih (h.2 t ht) has⟩

theorem AllSteps.of_append (h : AllSteps step C s (as ++ bs)) : AllSteps step C s as := by
  induction as generalizing s with
  | nil => trivial
  | cons a as ih => exact ⟨h.1, fun t ht => ih (h.2 t ht)⟩

theorem AllSteps.append (h : AllSteps step C s as) (hr : exec step s as = some t)
    (h' : AllSteps step C t bs) : AllSteps step C s (as ++ bs) := by
  induction as generalizing s with
  | nil =>
    cases hr
    exact h'
  | cons a as ih =>
    obtain ⟨u, hs, hr⟩ := exec_cons_some.1 hr
    refine ⟨h.1, fun v hv => ?_⟩
    obtain rfl := Option.some.inj (hs.symm.trans hv)
    exact ih (h.2 u hs) hr

theorem AllSteps.after (h : AllSteps step C s (as ++ bs)) (hr : exec step s as = some t) :
    AllSteps step C t bs := by
  induction as generalizing s with
  | nil =>
    cases hr
    exact h
  | cons a as ih =>
    obtain ⟨u, hs, hr⟩ := exec_cons_some.1 hr
    exact ih (h.2 u hs) hr

theorem AllSteps.apply_next (h : AllSteps step C s (as ++ b :: bs))
    (hr : exec step s as = some t) : C t b := by
  induction as generalizing s with
  | nil =>
    cases hr
    exact h.1
  | cons a as ih =>
    obtain ⟨u, hs, hu⟩ := exec_cons_some.1 hr
    exact ih (h.2 u hs) hu

theorem exec_invariant (keep : ∀ s a t, I s → step s a = some t → I t)
    (hs : I s) (hr : exec step s as = some t) : I t :=
  (throughout_of_allSteps (C := fun _ _ => True) (fun s a t hi _ ht => keep s a t hi ht) hs
    (allSteps_true s as)).last hr

theorem exec_invariant_of_allSteps (keep : ∀ s a t, I s → C s a → step s a = some t → I t)
    (hs : I s) (h : AllSteps step C s as) (hr : exec step s as = some t) : I t :=
  (throughout_of_allSteps keep hs h).last hr

/-- When the condition is exactly what keeps the invariant, and leaving it breaks the
predicate at once, a run satisfies the predicate throughout if and only if all its
steps meet the condition. -/
theorem throughout_iff_allSteps (keep : ∀ s a t, I s → C s a → step s a = some t → I t)
    (safe : ∀ s, I s → P s)
    (fail : ∀ s a, I s → ¬ C s a → ∃ t, step s a = some t ∧ ¬ P t) (hs : I s) :
    Throughout step P s as ↔ AllSteps step C s as := by
  constructor
  · intro h
    induction as generalizing s with
    | nil => trivial
    | cons a as ih =>
      have hc : C s a := by
        by_contra hn
        obtain ⟨t, ht, hp⟩ := fail s a hs hn
        exact hp (h.2 t ht).head
      exact ⟨hc, fun t ht => ih (keep s a t hs hc ht) (h.2 t ht)⟩
  · intro h
    exact (throughout_of_allSteps keep hs h).mono safe

theorem AllSteps.imp (keep : ∀ s a t, I s → C s a → step s a = some t → I t)
    (hCD : ∀ s a, I s → C s a → D s a) (hs : I s) (h : AllSteps step C s as) :
    AllSteps step D s as := by
  induction as generalizing s with
  | nil => trivial
  | cons a as ih =>
    exact ⟨hCD s a hs h.1, fun t ht => ih (keep s a t hs h.1 ht) (h.2 t ht)⟩

theorem allSteps_congr (keep : ∀ s a t, I s → step s a = some t → I t)
    (hCD : ∀ s a, I s → (C s a ↔ D s a)) (hs : I s) :
    AllSteps step C s as ↔ AllSteps step D s as := by
  constructor
  · exact AllSteps.imp (fun s a t hi _ => keep s a t hi) (fun s a hi => (hCD s a hi).1) hs
  · exact AllSteps.imp (fun s a t hi _ => keep s a t hi) (fun s a hi => (hCD s a hi).2) hs

/-- A run whose steps meet the condition goes through and is matched step by step by an abstract
machine. -/
theorem exec_simulation {R : σ → τ → Prop} {f : τ → α → τ}
    (keep : ∀ s u a, R s u → C s a → ∃ t, step s a = some t ∧ R t (f u a)) (hs : R s u)
    (h : AllSteps step C s as) : ∃ t, exec step s as = some t ∧ R t (as.foldl f u) := by
  induction as generalizing s u with
  | nil => exact ⟨s, rfl, hs⟩
  | cons a as ih =>
    obtain ⟨t, ht, hr⟩ := keep s u a hs h.1
    obtain ⟨v, hv, hr'⟩ := ih hr (h.2 t ht)
    exact ⟨v, exec_cons_some.2 ⟨t, ht, hv⟩, hr'⟩

/-- A simulation of one system by another, action by action. -/
theorem exec_map {step' : τ → β → Option τ} {R : σ → τ → Prop} {f : α → β}
    (keep : ∀ s u a t, R s u → step s a = some t → ∃ v, step' u (f a) = some v ∧ R t v)
    (hs : R s u) (hr : exec step s as = some t) :
    ∃ v, exec step' u (as.map f) = some v ∧ R t v := by
  induction as generalizing s u with
  | nil =>
    cases hr
    exact ⟨u, rfl, hs⟩
  | cons a as ih =>
    obtain ⟨s', hs', hr⟩ := exec_cons_some.1 hr
    obtain ⟨u', hu', hR⟩ := keep s u a s' hs hs'
    obtain ⟨v, hv, ht⟩ := ih hR hr
    exact ⟨v, exec_cons_some.2 ⟨u', hu', hv⟩, ht⟩

/-- A run whose steps either leave the abstract state alone or are steps of the abstract machine
is a run of it. -/
theorem exec_project {step' : τ → β → Option τ} {f : σ → τ} {g : α → Option β}
    (keep : ∀ s a t, I s → C s a → step s a = some t → I t)
    (quiet : ∀ s a t, I s → C s a → step s a = some t → g a = none → f t = f s)
    (move : ∀ s a t b, I s → C s a → step s a = some t → g a = some b →
      step' (f s) b = some (f t))
    (hs : I s) (h : AllSteps step C s as) (hr : exec step s as = some t) :
    exec step' (f s) (as.filterMap g) = some (f t) := by
  induction as generalizing s with
  | nil =>
    cases hr
    rfl
  | cons a as ih =>
    obtain ⟨u, ha, hu⟩ := exec_cons_some.1 hr
    have hrest := ih (keep s a u hs h.1 ha) (h.2 u ha) hu
    cases hg : g a with
    | none =>
      rw [List.filterMap_cons_none hg, ← quiet s a u hs h.1 ha hg]
      exact hrest
    | some b =>
      rw [List.filterMap_cons_some hg]
      exact exec_cons_some.2 ⟨f u, move s a u b hs h.1 ha hg, hrest⟩

/-- What is observed of the abstract steps of a run is what is observed of the abstract run. -/
theorem collect_project {step' : τ → β → Option τ} {f : σ → τ} {g : α → Option β}
    {observe : τ → β → List ε} (keep : ∀ s a t, I s → C s a → step s a = some t → I t)
    (quiet : ∀ s a t, I s → C s a → step s a = some t → g a = none → f t = f s)
    (move : ∀ s a t b, I s → C s a → step s a = some t → g a = some b →
      step' (f s) b = some (f t))
    (hs : I s) (h : AllSteps step C s as) (hr : exec step s as = some t) :
    collect step (fun s a => ((g a).map (observe (f s))).getD []) s as =
      collect step' observe (f s) (as.filterMap g) := by
  induction as generalizing s with
  | nil => rfl
  | cons a as ih =>
    obtain ⟨u, ha, hu⟩ := exec_cons_some.1 hr
    have hrest := ih (keep s a u hs h.1 ha) (h.2 u ha) hu
    cases hg : g a with
    | none =>
      rw [List.filterMap_cons_none hg, ← quiet s a u hs h.1 ha hg, ← hrest]
      simp only [collect, hg, ha, Option.map_none, Option.getD_none, List.nil_append]
    | some b =>
      rw [List.filterMap_cons_some hg]
      simp only [collect, hg, ha, move s a u b hs h.1 ha hg, hrest, Option.map_some,
        Option.getD_some]

/-- A run goes through when its steps meet a condition that keeps them possible. -/
theorem exec_progress (keep : ∀ s a, I s → C s a → ∃ t, step s a = some t ∧ I t) (hs : I s)
    (h : AllSteps step C s as) : ∃ t, exec step s as = some t ∧ I t :=
  exec_simulation (R := fun s _ => I s) (f := fun u _ => u) (u := ()) (fun s _ a => keep s a) hs h

/-- A reflexive and transitive relation that every step respects relates any two points of
a run. -/
theorem allSteps_related_iff {R : σ → σ → Prop} (refl : ∀ s, R s s)
    (trans : ∀ s t u, R s t → R t u → R s u) (s : σ) (as : List α) :
    AllSteps step (fun s a => ∀ t, step s a = some t → R s t) s as ↔
      ∀ bs cs t u, bs ++ cs <+: as → exec step s bs = some t → exec step t cs = some u →
        R t u := by
  have forward {s as} (h : AllSteps step (fun s a => ∀ t, step s a = some t → R s t) s as) :
      ∀ cs u, cs <+: as → exec step s cs = some u → R s u := by
    induction as generalizing s with
    | nil =>
      intro cs u hp hr
      rw [List.prefix_nil.1 hp] at hr
      cases hr
      exact refl _
    | cons a as ih =>
      intro cs u hp hr
      cases cs with
      | nil =>
        cases hr
        exact refl _
      | cons c cs =>
        obtain ⟨rfl, hp'⟩ := List.cons_prefix_cons.1 hp
        obtain ⟨t, hs, hu⟩ := exec_cons_some.1 hr
        exact trans s t u (h.1 t hs) (ih (h.2 t hs) cs u hp' hu)
  constructor
  · intro h bs cs t u hp ht hu
    induction bs generalizing s as with
    | nil =>
      cases ht
      exact forward h cs u hp hu
    | cons b bs ih =>
      cases as with
      | nil => cases List.prefix_nil.1 hp
      | cons a as =>
        obtain ⟨rfl, hp'⟩ := List.cons_prefix_cons.1 hp
        obtain ⟨v, hs, hv⟩ := exec_cons_some.1 ht
        exact ih v as (h.2 v hs) hp' hv
  · intro h
    induction as generalizing s with
    | nil => trivial
    | cons a as ih =>
      refine ⟨fun t ht => h [] [a] s t ⟨as, rfl⟩ rfl (exec_cons_some.2 ⟨t, ht, rfl⟩), ?_⟩
      intro t ht
      apply ih
      intro bs cs v u hp hv hu
      exact h (a :: bs) cs v u (List.cons_prefix_cons.2 ⟨rfl, hp⟩)
        (exec_cons_some.2 ⟨t, ht, hv⟩) hu

end
end Transition
