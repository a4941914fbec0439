import Mathlib.Algebra.BigOperators.Group.List.Basic
import Mathlib.Algebra.Order.Ring.Nat
import Mathlib.Data.List.Nodup

namespace Table
set_option autoImplicit true
variable {κ α β : Type} {m : List (κ × α)} {k : κ} {x : α} {P : α → Prop}

def mapValues (f : α → β) (m : List (κ × α)) : List (κ × β) := m.map fun x => (x.1, f x.2)

def All (P : α → Prop) (m : List (κ × α)) : Prop := ∀ x ∈ m, P x.2

def Distinct (m : List (κ × α)) : Prop := (m.map Prod.fst).Nodup

theorem lookup_mapValues [BEq κ] (f : α → β) (m : List (κ × α)) (k : κ) :
    (mapValues f m).lookup k = (m.lookup k).map f := by
  induction m with
  | nil => rfl
  | cons e m ih =>
    rw [mapValues, List.map_cons, List.lookup_cons, List.lookup_cons]
    cases k == e.1 with
    | true => rfl
    | false => exact ih

section
variable [BEq κ] [LawfulBEq κ]

theorem All.lookup (h : All P m) (hk : m.lookup k = some x) : P x := by
  obtain ⟨xs, ys, rfl, -⟩ := List.lookup_eq_some_iff.1 hk
  exact h (k, x) (List.mem_append_right _ List.mem_cons_self)

theorem lookup_cons_cases {e : κ × α} (h : List.lookup k (e :: m) = some x) :
    e = (k, x) ∨ e.1 ≠ k ∧ m.lookup k = some x := by
  obtain ⟨l, y⟩ := e
  cases hl : k == l with
  | true =>
    obtain rfl := eq_of_beq hl
    rw [List.lookup_cons_self] at h
    cases h
    exact .inl rfl
  | false =>
    rw [List.lookup_cons, hl] at h
    exact .inr ⟨(ne_of_beq_false hl).symm, h⟩

end

section
variable [DecidableEq κ]

def update (m : List (κ × α)) (k : κ) (x : α) : List (κ × α) :=
  m.map fun y => if y.1 = k then (y.1, x) else y

theorem update_cons (e : κ × α) (m : List (κ × α)) (k : κ) (x : α) :
    update (e :: m) k x = (if e.1 = k then (e.1, x) else e) :: update m k x := rfl

theorem keys_update (m : List (κ × α)) (k : κ) (x : α) :
    (update m k x).map Prod.fst = m.map Prod.fst := by
  rw [update, List.map_map]
  apply List.map_congr_left
  intro y _
  simp only [Function.comp_apply]
  split <;> rfl

theorem Distinct.update (h : Distinct m) (k : κ) (x : α) : Distinct (update m k x) := by
  rw [Distinct, keys_update]
  exact h

theorem All.update (h : All P m) (k : κ) (hx : P x) : All P (update m k x) := by
  intro y hy
  obtain ⟨z, hz, rfl⟩ := List.mem_map.1 hy
  split
  · exact hx
  · exact h z hz

theorem mapValues_update (f : α → β) (m : List (κ × α)) (k : κ) (x : α) :
    mapValues f (update m k x) = update (mapValues f m) k (f x) := by
  simp only [mapValues, update, List.map_map]
  apply List.map_congr_left
  intro y _
  simp only [Function.comp_apply]
  split <;> rfl

theorem update_absent (hk : k ∉ m.map Prod.fst) (x : α) : update m k x = m := by
  rw [update]
  conv_rhs => rw [← List.map_id m]
  apply List.map_congr_left
  intro y hy
  apply if_neg
  rintro rfl
  exact hk (List.mem_map_of_mem hy)

variable [BEq κ] [LawfulBEq κ]

theorem update_same (hd : Distinct m) (hk : m.lookup k = some x) : update m k x = m := by
  induction m with
  | nil => rfl
  | cons e m ih =>
    obtain ⟨he, hm⟩ := List.nodup_cons.1 hd
    rw [update_cons]
    rcases lookup_cons_cases hk with rfl | ⟨hne, hk⟩
    · rw [if_pos rfl, update_absent he]
    · rw [if_neg hne, ih hm hk]

theorem sum_update (f : α → Nat) (hd : Distinct m) (hk : m.lookup k = some x) (y : α) :
    ((update m k y).map fun e => f e.2).sum + f x = (m.map fun e => f e.2).sum + f y := by
  induction m with
  | nil => cases hk
  | cons e m ih =>
    obtain ⟨he, hm⟩ := List.nodup_cons.1 hd
    rw [update_cons, List.map_cons, List.map_cons, List.sum_cons, List.sum_cons]
    rcases lookup_cons_cases hk with rfl | ⟨hne, hk⟩
    · rw [if_pos rfl, update_absent he]
      dsimp only
      omega
    · have hi := ih hm hk
      rw [if_neg hne]
      omega

end
end Table
