import Noctua.Library.Execution
import Noctua.Wall.Writer
import Mathlib.Data.List.Forall2

namespace Noctua.Wall
open Transition
set_option autoImplicit true

/-- What one record does to the message list of its partition: a push record appends its
message, a remove record drops the head, which must carry the record's message. -/
def replayStep (q : List Text) (d : WallData) : Option (List Text) :=
  if d.isPushOperation then some (q ++ [d.message.text])
  else if q.head? = some d.message.text then some q.tail
  else none

def replay (ds : List WallData) : Option (List Text) := exec replayStep [] ds

theorem replay_concat (ds : List WallData) (d : WallData) :
    replay (ds ++ [d]) = (replay ds).bind fun q => replayStep q d := exec_concat _ _ _ _

theorem replayStep_push (hd : d.isPushOperation = true) (q : List Text) :
    replayStep q d = some (q ++ [d.message.text]) := if_pos hd

theorem replayStep_remove (hd : d.isPushOperation = false) {q : List Text}
    (hq : q.head? = some d.message.text) : replayStep q d = some q.tail := by
  rw [replayStep, if_neg (hd ▸ Bool.false_ne_true), if_pos hq]

def SameEffect (d e : WallData) : Prop :=
  d.isPushOperation = e.isPushOperation ∧
    (d.isPushOperation = true → d.message.text = e.message.text)

theorem replayStep_sameEffect {q x y : List Text} {d e : WallData} (h : SameEffect d e)
    (hx : replayStep q d = some x) (hy : replayStep q e = some y) : x = y := by
  cases hd : d.isPushOperation with
  | true =>
    rw [replayStep_push hd] at hx
    rw [replayStep_push (h.1.symm.trans hd), ← h.2 hd] at hy
    exact Option.some.inj (hx.symm.trans hy)
  | false =>
    rw [replayStep, if_neg (hd ▸ Bool.false_ne_true), Option.ite_none_right_eq_some] at hx
    rw [replayStep, if_neg ((h.1.symm.trans hd) ▸ Bool.false_ne_true),
      Option.ite_none_right_eq_some] at hy
    exact Option.some.inj (hx.2.symm.trans hy.2)

theorem exec_sameEffect {ds es : List WallData} {q x y : List Text}
    (h : List.Forall₂ SameEffect ds es) (hx : exec replayStep q ds = some x)
    (hy : exec replayStep q es = some y) : x = y := by
  induction h generalizing q with
  | nil => exact Option.some.inj (hx.symm.trans hy)
  | cons hd _ ih =>
    obtain ⟨a, ha, hx⟩ := exec_cons_some.1 hx
    obtain ⟨b, hb, hy⟩ := exec_cons_some.1 hy
    obtain rfl := replayStep_sameEffect hd ha hb
    exact ih hx hy

/-- Two logs that differ at most in the texts of their removes rebuild the same messages. -/
theorem replay_sameEffect {ds es : List WallData} {x y : List Text}
    (h : List.Forall₂ SameEffect ds es) (hx : replay ds = some x) (hy : replay es = some y) :
    x = y := exec_sameEffect h hx hy

theorem WallData.bytes_ne_nil (d : WallData) : d.bytes ≠ [] := by
  intro h
  have hl := d.bytes_length
  rw [h] at hl
  cases hl

theorem forall₂_bytes {ds es : List WallData}
    (h : (ds.map WallData.bytes).flatten = (es.map WallData.bytes).flatten) :
    List.Forall₂ (fun d e => d.bytes = e.bytes) ds es := by
  induction ds generalizing es with
  | nil =>
    cases es with
    | nil => exact .nil
    | cons e es => exact (e.bytes_ne_nil (List.append_eq_nil_iff.1 h.symm).1).elim
  | cons d ds ih =>
    cases es with
    | nil => exact (d.bytes_ne_nil (List.append_eq_nil_iff.1 h).1).elim
    | cons e es =>
      obtain ⟨hd, hs⟩ := List.append_inj h (d.bytes_length.trans e.bytes_length.symm)
      exact .cons hd (ih hs)

end Noctua.Wall
