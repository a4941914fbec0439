import Noctua.Library.Execution
import Mathlib.Algebra.BigOperators.Group.List.Basic
import Mathlib.Algebra.Order.Ring.Nat

namespace Potential
open Transition
set_option autoImplicit true

/-- Steps that use up a potential which only paid actions raise: their number is paid for. -/
theorem exec_bounded {step : σ → α → Option σ} {I : σ → Prop} {potential : σ → Nat} {cost : α → Nat}
    (keep : ∀ s a t, I s → step s a = some t → I t)
    (drop : ∀ s a t, I s → step s a = some t → potential t + 1 ≤ potential s + cost a)
    (hs : I s) (hr : exec step s as = some t) :
    as.length + potential t ≤ potential s + (as.map cost).sum := by
  induction as generalizing s with
  | nil =>
    cases hr
    simp
  | cons a as ih =>
    obtain ⟨u, ha, hu⟩ := exec_cons_some.1 hr
    have hrest := ih (keep s a u hs ha) hu
    have hone := drop s a u hs ha
    rw [List.length_cons, List.map_cons, List.sum_cons]
    omega

theorem zip_set {xs : List α} {ys : List β} :
    (xs.set i x).zip (ys.set i y) = (xs.zip ys).set i (x, y) := by
  induction xs generalizing ys i with
  | nil => rfl
  | cons a as ih =>
    cases ys with
    | nil => cases i <;> rfl
    | cons b bs =>
      cases i with
      | zero => rfl
      | succ i => exact congrArg _ ih

theorem sum_map_set {xs : List α} (f : α → Nat) (h : xs[i]? = some x) :
    ((xs.set i y).map f).sum + f x = (xs.map f).sum + f y := by
  induction xs generalizing i with
  | nil => cases h
  | cons a as ih =>
    cases i with
    | zero =>
      cases h
      simp only [List.set_cons_zero, List.map_cons, List.sum_cons]
      omega
    | succ i =>
      have hi := ih h
      simp only [List.set_cons_succ, List.map_cons, List.sum_cons]
      omega

end Potential
