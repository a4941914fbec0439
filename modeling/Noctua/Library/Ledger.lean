import Mathlib.Data.List.Nodup

namespace Ledger
set_option autoImplicit true

/-- Issued items pass from waiting to held to done; `granted` lists those that were ever held. -/
structure Balanced (issued waiting held done granted : List α) : Prop where
  states : (waiting ++ (held ++ done)).Perm issued
  grants : granted.Perm (held ++ done)

section
variable {issued waiting waiting' held held' done granted : List α} {x : α}

theorem balanced_nil : Balanced ([] : List α) [] [] [] [] := ⟨.refl _, .refl _⟩

theorem Balanced.grantedOnce (h : Balanced issued waiting held done granted)
    (hi : issued.Nodup) : granted.Nodup := by
  have hn := h.states.nodup_iff.2 hi
  exact h.grants.nodup_iff.2 hn.of_append_right

theorem Balanced.enqueue (h : Balanced issued waiting held done granted)
    (hw : waiting'.Perm (x :: waiting)) :
    Balanced (issued ++ [x]) waiting' held done granted where
  states := by
    apply (hw.append_right _).trans
    exact (h.states.cons x).trans (List.perm_append_singleton x issued).symm
  grants := h.grants

theorem Balanced.admit (h : Balanced issued waiting held done granted)
    (hh : held'.Perm (x :: held)) :
    Balanced (issued ++ [x]) waiting held' done (granted ++ [x]) where
  states := by
    apply ((hh.append_right done).append_left waiting).trans
    apply List.perm_middle.trans
    exact (h.states.cons x).trans (List.perm_append_singleton x issued).symm
  grants := by
    apply (List.perm_append_singleton x granted).trans
    exact (h.grants.cons x).trans (hh.append_right done).symm

theorem Balanced.grant (h : Balanced issued waiting held done granted)
    (hw : waiting.Perm (x :: waiting')) (hh : held'.Perm (x :: held)) :
    Balanced issued waiting' held' done (granted ++ [x]) where
  states := by
    apply ((hh.append_right done).append_left waiting').trans
    apply List.perm_middle.trans
    exact (hw.append_right _).symm.trans h.states
  grants := by
    apply (List.perm_append_singleton x granted).trans
    exact (h.grants.cons x).trans (hh.append_right done).symm

theorem Balanced.settle (h : Balanced issued waiting held done granted)
    (hh : held.Perm (xs ++ held')) : Balanced issued waiting held' (done ++ xs) granted := by
  have hd : (held' ++ (done ++ xs)).Perm (held ++ done) := by
    rw [← List.append_assoc]
    apply List.perm_append_comm.trans
    rw [← List.append_assoc]
    exact (hh.append_right done).symm
  exact ⟨(hd.append_left waiting).trans h.states, h.grants.trans hd.symm⟩

theorem Balanced.release (h : Balanced issued waiting held done granted)
    (hh : held.Perm (x :: held')) : Balanced issued waiting held' (done ++ [x]) granted :=
  h.settle hh

theorem Balanced.move (h : Balanced issued waiting held done granted) (hh : held.Perm held') :
    Balanced issued waiting held' done granted := by
  have hs := settle h (show held.Perm ([] ++ held') from hh)
  rwa [List.append_nil] at hs

end

/-- What the holders of a list hold together. -/
def holdings (f : α → List β) (holders : List α) : List β := holders.flatMap f

section
variable {f : α → List β} {xs : List α} {ys : List β} {a b : α} {i j : Nat} {x : β}

theorem holdings_concat : holdings f (xs ++ [a]) = holdings f xs ++ f a := by
  rw [holdings, List.flatMap_append, List.flatMap_singleton, holdings]

theorem holdings_set (hi : xs[i]? = some a) (b : α) :
    (f a ++ holdings f (xs.set i b)).Perm (f b ++ holdings f xs) := by
  induction xs generalizing i with
  | nil => cases hi
  | cons y ys ih =>
    cases i with
    | zero =>
      cases hi
      exact List.perm_append_comm_assoc _ _ _
    | succ i =>
      apply (List.perm_append_comm_assoc _ _ _).trans
      apply ((ih hi).append_left (f y)).trans
      exact List.perm_append_comm_assoc _ _ _

theorem holdings_extend (hi : xs[i]? = some a) (hb : f b = f a ++ ys) :
    (holdings f (xs.set i b)).Perm (holdings f xs ++ ys) := by
  have h := holdings_set (f := f) hi b
  rw [hb, List.append_assoc, List.perm_append_left_iff] at h
  exact h.trans List.perm_append_comm

theorem holdings_drop (hi : xs[i]? = some a) (ha : f a = ys ++ f b) :
    (holdings f xs).Perm (ys ++ holdings f (xs.set i b)) := by
  have h := holdings_set (f := f) hi b
  rw [ha] at h
  apply (List.perm_append_left_iff (f b)).1
  apply h.symm.trans
  rw [List.append_assoc]
  exact List.perm_append_comm_assoc _ _ _

theorem holdings_swap (hi : xs[i]? = some a) (hj : xs[j]? = some b) :
    (holdings f ((xs.set i b).set j a)).Perm (holdings f xs) := by
  by_cases he : i = j
  · subst he
    cases hi.symm.trans hj
    rw [List.set_set]
    exact (List.perm_append_left_iff (f a)).1 (holdings_set hi a)
  · have hj' : (xs.set i b)[j]? = some b := by rw [List.getElem?_set_ne he, hj]
    have first := holdings_set (f := f) hi b
    have second := holdings_set (f := f) hj' a
    exact (List.perm_append_left_iff (f b)).1 (second.trans first)

/-- A holder hands everything to a new one. -/
theorem holdings_transfer (hj : xs[j]? = some a) (hb : f b = []) :
    (holdings f (xs.set j b ++ [a])).Perm (holdings f xs) := by
  have h := holdings_set (f := f) hj b
  rw [hb, List.nil_append] at h
  rw [holdings_concat]
  exact List.perm_append_comm.trans h

theorem holdings_overwrite (hne : i ≠ j) (hi : xs[i]? = some a) (hj : xs[j]? = some b)
    (hc : f c = []) : (holdings f xs).Perm (f a ++ holdings f ((xs.set i b).set j c)) := by
  have hj' : (xs.set i b)[j]? = some b := by rw [List.getElem?_set_ne hne, hj]
  have first := holdings_set (f := f) hi b
  have second : (holdings f (xs.set i b)).Perm (f b ++ holdings f ((xs.set i b).set j c)) :=
    holdings_drop hj' (by rw [hc, List.append_nil])
  apply (List.perm_append_left_iff (f b)).1
  apply first.symm.trans
  apply (second.append_left (f a)).trans
  exact List.perm_append_comm_assoc _ _ _

theorem mem_holdings (hi : xs[i]? = some a) (ha : x ∈ f a) : x ∈ holdings f xs :=
  List.mem_flatMap_of_mem (List.mem_of_getElem? hi) ha

theorem holdings_sole (hn : (holdings f xs).Nodup) (hi : xs[i]? = some a)
    (hj : xs[j]? = some b) (ha : x ∈ f a) (hb : x ∈ f b) : i = j := by
  induction xs generalizing i j with
  | nil => cases hi
  | cons y ys ih =>
    have hd := List.disjoint_of_nodup_append hn
    cases i with
    | zero =>
      cases j with
      | zero => rfl
      | succ j =>
        cases hi
        exact (hd ha (List.mem_flatMap_of_mem (List.mem_of_getElem? hj) hb)).elim
    | succ i =>
      cases j with
      | zero =>
        cases hj
        exact (hd hb (List.mem_flatMap_of_mem (List.mem_of_getElem? hi) ha)).elim
      | succ j => exact congrArg (· + 1) (ih hn.of_append_right hi hj)

end
end Ledger
