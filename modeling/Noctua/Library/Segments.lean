import Mathlib.Data.List.Basic

namespace Segments
set_option autoImplicit true

/-- The next `n` elements of a stream that arrives in segments, and what is left; there are none
where the stream ends before. -/
def read : Nat → List (List α) → Option (List α × List (List α))
  | 0, segs => some ([], segs)
  | _ + 1, [] => none
  | n + 1, seg :: segs =>
    if n + 1 ≤ seg.length then some (seg.take (n + 1), seg.drop (n + 1) :: segs)
    else (read (n + 1 - seg.length) segs).map fun (xs, rest) => (seg ++ xs, rest)

theorem read_some {segs rest : List (List α)} (h : read n segs = some (xs, rest)) :
    segs.flatten = xs ++ rest.flatten ∧ xs.length = n := by
  induction segs generalizing n xs with
  | nil =>
    cases n with
    | zero =>
      cases h
      exact ⟨rfl, rfl⟩
    | succ n => cases h
  | cons seg segs ih =>
    cases n with
    | zero =>
      cases h
      exact ⟨rfl, rfl⟩
    | succ n =>
      rw [read] at h
      split at h
      · rename_i hle
        cases h
        refine ⟨?_, List.length_take_of_le hle⟩
        rw [List.flatten_cons, List.flatten_cons, ← List.append_assoc, List.take_append_drop]
      · rename_i hlt
        obtain ⟨⟨ys, rest'⟩, hr, he⟩ := Option.map_eq_some_iff.1 h
        cases he
        obtain ⟨hf, hl⟩ := ih hr
        refine ⟨?_, by rw [List.length_append, hl]; omega⟩
        rw [List.flatten_cons, hf, List.append_assoc]

theorem read_none {segs : List (List α)} (h : read n segs = none) : segs.flatten.length < n := by
  induction segs generalizing n with
  | nil =>
    cases n with
    | zero => cases h
    | succ n => exact Nat.succ_pos n
  | cons seg segs ih =>
    cases n with
    | zero => cases h
    | succ n =>
      rw [read] at h
      split at h
      · cases h
      · have hl := ih (Option.map_eq_none_iff.1 h)
        rw [List.flatten_cons, List.length_append]
        omega

end Segments
