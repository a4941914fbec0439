import Mathlib.Data.List.Nodup

namespace Chain
set_option autoImplicit true

section
variable (heap : κ → Option ν) (next : ν → κ) (null : κ)

/-- From `p` the links lead through these addresses and then to `stop`. -/
def Segment (stop : κ) : κ → List κ → Prop
  | p, [] => p = stop
  | p, a :: as => p = a ∧ a ≠ null ∧ ∃ n, heap a = some n ∧ Segment stop (next n) as

def Linked (p : κ) (as : List κ) : Prop := Segment heap next null null p as

def walk [DecidableEq κ] : Nat → κ → Option (List κ)
  | 0, _ => none
  | fuel + 1, p =>
    if p = null then some []
    else (heap p).bind fun n => (walk fuel (next n)).map (p :: ·)

end

variable {heap heap' : κ → Option ν} {next : ν → κ} {null : κ}

theorem segment_append : Segment heap next null r p (as ++ bs) ↔
    ∃ q, Segment heap next null q p as ∧ Segment heap next null r q bs := by
  induction as generalizing p with
  | nil => exact ⟨fun h => ⟨p, rfl, h⟩, fun ⟨_, hq, h⟩ => hq ▸ h⟩
  | cons a as ih =>
    constructor
    · rintro ⟨rfl, hn, n, ha, h⟩
      obtain ⟨q, hq, hr⟩ := ih.1 h
      exact ⟨q, ⟨rfl, hn, n, ha, hq⟩, hr⟩
    · rintro ⟨q, ⟨rfl, hn, n, ha, hq⟩, hr⟩
      exact ⟨rfl, hn, n, ha, ih.2 ⟨q, hq, hr⟩⟩

/-- A segment does not depend on the rest of the heap. -/
theorem Segment.frame (h : Segment heap next null q p as) (ha : ∀ a ∈ as, heap' a = heap a) :
    Segment heap' next null q p as := by
  induction as generalizing p with
  | nil => exact h
  | cons a as ih =>
    obtain ⟨rfl, hn, n, hp, h⟩ := h
    refine ⟨rfl, hn, n, (ha p List.mem_cons_self).trans hp, ih h ?_⟩
    exact fun b hb => ha b (List.mem_cons_of_mem _ hb)

theorem Segment.live (h : Segment heap next null q p as) (ha : a ∈ as) :
    a ≠ null ∧ ∃ n, heap a = some n := by
  induction as generalizing p with
  | nil => cases ha
  | cons b as ih =>
    obtain ⟨rfl, hn, n, hp, h⟩ := h
    obtain rfl | ha := List.mem_cons.1 ha
    · exact ⟨hn, n, hp⟩
    · exact ih h ha

theorem Linked.unique (h : Linked heap next null p as) (h' : Linked heap next null p bs) :
    as = bs := by
  induction as generalizing p bs with
  | nil =>
    cases bs with
    | nil => rfl
    | cons b bs => exact (h'.2.1 (h'.1.symm.trans h)).elim
  | cons a as ih =>
    obtain ⟨rfl, hn, n, hp, h⟩ := h
    cases bs with
    | nil => exact (hn h').elim
    | cons b bs =>
      obtain ⟨rfl, -, m, hp', h'⟩ := h'
      cases hp.symm.trans hp'
      rw [ih h h']

/-- A chain visits no address twice: it would have to come back for ever. -/
theorem Linked.nodup (h : Linked heap next null p as) : as.Nodup := by
  induction as generalizing p with
  | nil => exact List.nodup_nil
  | cons a as ih =>
    have hrest := h
    obtain ⟨rfl, hn, n, hp, hs⟩ := hrest
    refine List.nodup_cons.2 ⟨fun hm => ?_, ih hs⟩
    obtain ⟨bs, cs, rfl⟩ := List.append_of_mem hm
    obtain ⟨q, -, hq⟩ := segment_append.1 hs
    obtain rfl := hq.1
    have hl := congrArg List.length (Linked.unique h hq)
    simp only [List.length_cons, List.length_append] at hl
    omega

theorem Linked.snoc (h : Linked heap next null p (as ++ [t]))
    (hframe : ∀ a ∈ as, heap' a = heap a) (ht : heap' t = some m) (hm : next m = b)
    (hb : b ≠ null) (hn : heap' b = some n) (hnull : next n = null) :
    Linked heap' next null p (as ++ [t] ++ [b]) := by
  obtain ⟨q, hq, rfl, htn, -⟩ := segment_append.1 h
  rw [List.append_assoc]
  exact segment_append.2 ⟨q, hq.frame hframe, rfl, htn, m, ht, hm, hb, n, hn, hnull⟩

theorem walk_of_linked [DecidableEq κ] (h : Linked heap next null p as)
    (hf : as.length < fuel) : walk heap next null fuel p = some as := by
  induction as generalizing p fuel with
  | nil =>
    cases fuel with
    | zero => cases hf
    | succ fuel =>
      rw [walk]
      exact if_pos h
  | cons a as ih =>
    obtain ⟨rfl, hn, n, hp, h⟩ := h
    cases fuel with
    | zero => cases hf
    | succ fuel =>
      rw [walk, if_neg hn, hp, Option.bind_some, ih h (Nat.lt_of_succ_lt_succ hf),
        Option.map_some]

end Chain
