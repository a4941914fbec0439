import Mathlib.Data.List.Basic

/-- Lists that are moved from one object to another; `none` for an object that is destroyed. -/
abbrev ListFamily (β : Type) := List (Option (List β))

namespace ListFamily
set_option autoImplicit true

inductive Operation (β : Type) where
  | construct
  | push (i : Nat) (x : β)
  | pop (i : Nat)
  | moveConstruct (j : Nat)
  | moveAssign (i j : Nat)
  | destroy (i : Nat)
  deriving DecidableEq, Repr

def Operation.map (f : α → β) : Operation α → Operation β
  | construct => construct
  | push i x => push i (f x)
  | pop i => pop i
  | moveConstruct j => moveConstruct j
  | moveAssign i j => moveAssign i j
  | destroy i => destroy i

/-- The list of an object, while it lives. -/
def live (F : ListFamily β) (i : Nat) : Option (List β) := F[i]?.join

/-- Append, drop the first, transfer leaving nothing behind, swap. An operation on an object that
does not live leaves the family as it is. -/
def step (F : ListFamily β) : Operation β → ListFamily β
  | .construct => F ++ [some []]
  | .push i x =>
    match F.live i with
    | some xs => F.set i (some (xs ++ [x]))
    | none => F
  | .pop i =>
    match F.live i with
    | some xs => F.set i (some xs.tail)
    | none => F
  | .moveConstruct j =>
    match F.live j with
    | some xs => F.set j (some []) ++ [some xs]
    | none => F
  | .moveAssign i j =>
    match F.live i, F.live j with
    | some xs, some ys => (F.set i (some ys)).set j (some xs)
    | _, _ => F
  | .destroy i => F.set i none

def run (F : ListFamily β) (ops : List (Operation β)) : ListFamily β := ops.foldl step F

def mapItems (f : α → β) (F : ListFamily α) : ListFamily β := F.map (Option.map (List.map f))

section
variable {xs : List (Option γ)} {i j : Nat}

theorem isSome_join : xs[i]?.join.isSome = ((xs.map Option.isSome)[i]?).getD false := by
  rw [List.getElem?_map]
  cases xs[i]? with
  | none => rfl
  | some o => rfl

theorem join_set_self (hi : xs[i]?.join = some a) (b : Option γ) : (xs.set i b)[i]?.join = b := by
  have hlt := (List.getElem?_eq_some_iff.1 (Option.join_eq_some_iff.1 hi)).1
  rw [List.getElem?_set_self hlt]
  exact Option.join_some

theorem join_set_ne (hne : i ≠ j) (b : Option γ) : (xs.set i b)[j]?.join = xs[j]?.join := by
  rw [List.getElem?_set_ne hne]

theorem join_concat (b : Option γ) (j : Nat) :
    (xs ++ [b])[j]?.join = if j = xs.length then b else xs[j]?.join := by
  split
  · rename_i he
    rw [he, List.getElem?_concat_length]
    exact Option.join_some
  · rename_i hne
    by_cases hlt : j < xs.length
    · rw [List.getElem?_append_left hlt]
    · rw [List.getElem?_eq_none (by rw [List.length_append, List.length_singleton]; omega),
        List.getElem?_eq_none (Nat.not_lt.1 hlt)]

end

variable {F : ListFamily α} {f : α → β}

theorem live_map (f : α → β) (F : ListFamily α) (i : Nat) :
    (F.mapItems f).live i = (F.live i).map (List.map f) := by
  rw [live, live, mapItems, List.getElem?_map]
  cases F[i]? with
  | none => rfl
  | some o => rfl

theorem step_map (f : α → β) (F : ListFamily α) (op : Operation α) :
    (F.mapItems f).step (op.map f) = (F.step op).mapItems f := by
  cases op with
  | construct => simp [step, Operation.map, mapItems]
  | push i x =>
    simp only [step, Operation.map, live_map]
    cases F.live i with
    | none => rfl
    | some xs => simp [mapItems]
  | pop i =>
    simp only [step, Operation.map, live_map]
    cases F.live i with
    | none => rfl
    | some xs => simp [mapItems]
  | moveConstruct j =>
    simp only [step, Operation.map, live_map]
    cases F.live j with
    | none => rfl
    | some xs => simp [mapItems]
  | moveAssign i j =>
    simp only [step, Operation.map, live_map]
    cases F.live i with
    | none => rfl
    | some xs =>
      cases F.live j with
      | none => rfl
      | some ys => simp [mapItems]
  | destroy i => simp [step, Operation.map, mapItems]

/-- A `push` or a `pop` at one of the first `n` lists. -/
def Operation.Within (n : Nat) : Operation β → Prop
  | push i _ | pop i => i < n
  | construct | moveConstruct _ | moveAssign _ _ | destroy _ => False

theorem isSome_live_set (hi : F.live i = some xs) (ys : List α) (j : Nat) :
    (live (F.set i (some ys)) j).isSome = (F.live j).isSome := by
  rw [live]
  by_cases hj : i = j
  · rw [← hj, join_set_self hi, hi]
    rfl
  · rw [join_set_ne hj]
    rfl

theorem isSome_live_step {op : Operation α} (hop : op.Within n) (F : ListFamily α) (j : Nat) :
    ((F.step op).live j).isSome = (F.live j).isSome := by
  cases op with
  | push i x =>
    rw [step]
    split
    · exact isSome_live_set ‹_› _ j
    · rfl
  | pop i =>
    rw [step]
    split
    · exact isSome_live_set ‹_› _ j
    · rfl
  | construct | moveConstruct | moveAssign | destroy => cases hop

def All (P : β → Prop) (F : ListFamily β) : Prop := ∀ i xs, F.live i = some xs → ∀ x ∈ xs, P x

def Operation.Carries (P : β → Prop) : Operation β → Prop
  | push _ x => P x
  | _ => True

theorem live_set (h : live (F.set i o) j = some xs) : o = some xs ∨ F.live j = some xs := by
  rw [live, List.getElem?_set] at h
  split at h
  · split at h
    · exact .inl h
    · cases h
  · exact .inr h

theorem All.set {P : β → Prop} {F : ListFamily β} (h : F.All P)
    (ho : ∀ ys, o = some ys → ∀ x ∈ ys, P x) : All P (F.set i o) := by
  intro j ys hj
  obtain hn | hl := live_set hj
  · exact ho ys hn
  · exact h j ys hl

theorem All.concat {P : β → Prop} {F : ListFamily β} (h : F.All P) (hx : ∀ x ∈ xs, P x) :
    All P (F ++ [some xs]) := by
  intro j ys hj
  rw [live, join_concat] at hj
  split at hj
  · cases hj
    exact hx
  · exact h j ys hj

theorem All.step {P : β → Prop} {F : ListFamily β} (h : F.All P) {op : Operation β}
    (hop : op.Carries P) : (F.step op).All P := by
  cases op with
  | construct => exact h.concat fun _ hx => (by cases hx)
  | push i x =>
    rw [ListFamily.step]
    split
    · rename_i xs hi
      apply h.set
      rintro ys ⟨⟩ y hy
      obtain hy | hy := List.mem_append.1 hy
      · exact h i xs hi y hy
      · exact List.mem_singleton.1 hy ▸ hop
    · exact h
  | pop i =>
    rw [ListFamily.step]
    split
    · rename_i xs hi
      apply h.set
      rintro ys ⟨⟩ y hy
      exact h i xs hi y (List.mem_of_mem_tail hy)
    · exact h
  | moveConstruct j =>
    rw [ListFamily.step]
    split
    · rename_i xs hj
      apply All.concat _ (h j xs hj)
      apply h.set
      rintro ys ⟨⟩ y ⟨⟩
    · exact h
  | moveAssign i j =>
    rw [ListFamily.step]
    split
    · rename_i xs ys hi hj
      apply All.set (h.set _)
      · rintro zs ⟨⟩
        exact h i xs hi
      · rintro zs ⟨⟩
        exact h j ys hj
    · exact h
  | destroy i =>
    apply h.set
    rintro ys ⟨⟩

/-- What an operation appends to list `i`. -/
def Operation.behind (i : Nat) : Operation β → List β
  | push j x => if j = i then [x] else []
  | construct | pop _ | moveConstruct _ | moveAssign _ _ | destroy _ => []

theorem live_concat (h : F.live i = some xs) (o : Option (List α)) :
    live (F ++ [o]) i = some xs := by
  have hlt := (List.getElem?_eq_some_iff.1 (Option.join_eq_some_iff.1 h)).1
  rw [live, join_concat, if_neg (Nat.ne_of_lt hlt)]
  exact h

theorem live_moveAssign {as bs : List α} (ha : F.live a = some as) (hb : F.live b = some bs) :
    (F.step (.moveAssign a b)).live b = some as ∧
      ∀ i, i ≠ b → (F.step (.moveAssign a b)).live i = if i = a then some bs else F.live i := by
  have hset : live (F.set a (some bs)) b = some bs := by
    by_cases hab : a = b
    · subst hab
      exact join_set_self ha _
    · exact (join_set_ne hab _).trans hb
  simp only [step, ha, hb]
  refine ⟨join_set_self hset _, fun i hi => (join_set_ne hi.symm _).trans ?_⟩
  split
  · rename_i hia
    subst hia
    exact join_set_self ha _
  · rename_i hia
    exact join_set_ne (Ne.symm hia) _

/-- An element stays where it is in its list, whichever object has the list, until it comes to
the front and is dropped. -/
theorem live_step (h : F.live i = some (xs ++ x :: ys)) (op : Operation α) :
    (∃ j zs, (F.step op).live j = some (zs ++ x :: (ys ++ op.behind i))) ∨
      op = .pop i ∧ xs = [] ∨ op = .destroy i := by
  have kept (hb : op.behind i = []) (hl : (F.step op).live i = F.live i) :
      ∃ j zs, (F.step op).live j = some (zs ++ x :: (ys ++ op.behind i)) :=
    ⟨i, xs, by rw [hl, h, hb, List.append_nil]⟩
  cases op with
  | construct => exact .inl (kept rfl (live_concat h _ ▸ h.symm))
  | push j y =>
    left
    by_cases hj : j = i
    · subst hj
      refine ⟨j, xs, ?_⟩
      simp only [step, h, Operation.behind, if_true]
      rw [live, join_set_self h, List.append_assoc]
      rfl
    · refine kept (if_neg hj) ?_
      rw [step]
      split
      · exact join_set_ne hj _
      · rfl
  | pop j =>
    by_cases hj : j = i
    · subst hj
      cases xs with
      | nil => exact .inr (.inl ⟨rfl, rfl⟩)
      | cons z zs =>
        refine .inl ⟨j, zs, ?_⟩
        simp only [step, h, Operation.behind, List.append_nil]
        rw [live, join_set_self h]
        rfl
    · refine .inl (kept rfl ?_)
      rw [step]
      split
      · exact join_set_ne hj _
      · rfl
  | moveConstruct j =>
    left
    by_cases hj : j = i
    · subst hj
      refine ⟨F.length, xs, ?_⟩
      simp only [step, h, Operation.behind, List.append_nil]
      rw [live, join_concat, List.length_set, if_pos rfl]
    · refine kept rfl ?_
      rw [step]
      split
      · have hl : live (F.set j (some [])) i = F.live i := join_set_ne hj _
        exact (live_concat (hl.trans h) _).trans h.symm
      · rfl
  | moveAssign a b =>
    left
    cases ha : F.live a with
    | none => exact kept rfl (by simp only [step, ha])
    | some as =>
      cases hb : F.live b with
      | none => exact kept rfl (by simp only [step, ha, hb])
      | some bs =>
        obtain ⟨hlast, hothers⟩ := live_moveAssign ha hb
        have hnil : ys ++ (Operation.moveAssign a b : Operation α).behind i = ys :=
          List.append_nil ys
        rw [hnil]
        by_cases hia : i = a
        · subst hia
          exact ⟨b, xs, hlast.trans (ha.symm.trans h)⟩
        · by_cases hib : i = b
          · subst hib
            refine ⟨a, xs, (hothers a (Ne.symm hia)).trans ?_⟩
            rw [if_pos rfl, ← hb, h]
          · exact ⟨i, xs, (hothers i hib).trans ((if_neg hia).trans h)⟩
  | destroy j =>
    by_cases hj : j = i
    · exact .inr (.inr (hj ▸ rfl))
    · exact .inl (kept rfl (join_set_ne hj _))

end ListFamily
