import Noctua.Library.Execution

namespace Transition
set_option autoImplicit true

/-- The unwinding conditions for one observer: an action that gives it no input changes neither
its view nor what it observes, and what an input does depends on its view alone. -/
structure Unwinding (step : σ → α → Option σ) (I : σ → Prop) (view : σ → ν)
    (input : α → Option κ) (observe : σ → α → List ε) : Prop where
  keep : ∀ s a t, I s → step s a = some t → I t
  respects : ∀ s a t, I s → input a = none → step s a = some t →
    view t = view s ∧ observe s a = []
  consistent : ∀ s s' a a' k t t', I s → I s' → view s = view s' → input a = some k →
    input a' = some k → step s a = some t → step s' a' = some t' →
      view t = view t' ∧ observe s a = observe s' a'

section
variable {step : σ → α → Option σ} {I : σ → Prop} {view : σ → ν} {input : α → Option κ}
  {observe : σ → α → List ε}

theorem collect_of_step (hs : step s a = some t) :
    collect step observe s (a :: as) = observe s a ++ collect step observe t as := by
  rw [collect, hs]

namespace Unwinding

theorem silent (h : Unwinding step I view input observe) (hi : I s)
    (hn : as.filterMap input = []) (hr : exec step s as = some t) :
    view t = view s ∧ collect step observe s as = [] := by
  induction as generalizing s with
  | nil =>
    cases hr
    exact ⟨rfl, rfl⟩
  | cons a as ih =>
    obtain ⟨u, hs, hu⟩ := exec_cons_some.1 hr
    have ha : input a = none := List.filterMap_eq_nil_iff.1 hn a List.mem_cons_self
    rw [List.filterMap_cons_none ha] at hn
    obtain ⟨hv, ho⟩ := h.respects s a u hi ha hs
    obtain ⟨hv', ho'⟩ := ih (h.keep s a u hi hs) hn hu
    exact ⟨hv'.trans hv, by rw [collect_of_step hs, ho, ho', List.append_nil]⟩

theorem first_input (h : Unwinding step I view input observe) (hi : I s)
    (hk : as.filterMap input = k :: ks) (hr : exec step s as = some t) :
    ∃ v a w bs, I v ∧ view v = view s ∧ input a = some k ∧ step v a = some w ∧
      bs.filterMap input = ks ∧ exec step w bs = some t ∧
        collect step observe s as = observe v a ++ collect step observe w bs := by
  induction as generalizing s with
  | nil => cases hk
  | cons a as ih =>
    obtain ⟨u, hs, hu⟩ := exec_cons_some.1 hr
    cases ha : input a with
    | none =>
      rw [List.filterMap_cons_none ha] at hk
      obtain ⟨hv, ho⟩ := h.respects s a u hi ha hs
      obtain ⟨v, b, w, bs, hiv, hvv, hb, hw, hbs, hrw, hc⟩ := ih (h.keep s a u hi hs) hk hu
      refine ⟨v, b, w, bs, hiv, hvv.trans hv, hb, hw, hbs, hrw, ?_⟩
      rw [collect_of_step hs, ho, hc, List.nil_append]
    | some l =>
      rw [List.filterMap_cons_some ha] at hk
      cases hk
      exact ⟨s, a, u, as, hi, rfl, ha, hs, rfl, hu, collect_of_step hs⟩

/-- The unwinding theorem: two runs that give the observer the same inputs show it the same. -/
theorem noninterference (h : Unwinding step I view input observe) (hi : I s) (hi' : I s')
    (hv : view s = view s') (hk : as.filterMap input = bs.filterMap input)
    (hr : exec step s as = some t) (hr' : exec step s' bs = some t') :
    view t = view t' ∧ collect step observe s as = collect step observe s' bs := by
  generalize hks : as.filterMap input = ks at hk
  induction ks generalizing s s' as bs with
  | nil =>
    obtain ⟨hv₁, ho₁⟩ := h.silent hi hks hr
    obtain ⟨hv₂, ho₂⟩ := h.silent hi' hk.symm hr'
    exact ⟨hv₁.trans (hv.trans hv₂.symm), ho₁.trans ho₂.symm⟩
  | cons k ks ih =>
    obtain ⟨v, a, w, cs, hiv, hvv, ha, hw, hcs, hrw, hc⟩ := h.first_input hi hks hr
    obtain ⟨v', a', w', cs', hiv', hvv', ha', hw', hcs', hrw', hc'⟩ :=
      h.first_input hi' hk.symm hr'
    obtain ⟨hvw, ho⟩ := h.consistent v v' a a' k w w' hiv hiv'
      (hvv.trans (hv.trans hvv'.symm)) ha ha' hw hw'
    obtain ⟨hvt, hct⟩ := ih (h.keep v a w hiv hw) (h.keep v' a' w' hiv' hw') hvw hrw hrw' hcs
      hcs'.symm
    exact ⟨hvt, by rw [hc, hc', ho, hct]⟩

end Unwinding
end
end Transition
