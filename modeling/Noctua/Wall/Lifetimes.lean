import Noctua.Library.Execution
import Noctua.Wall.Writer

namespace Noctua.Wall
open Transition
set_option autoImplicit true

/-- The flags of `std::ios_base::openmode` that decide what opening does to a file. -/
structure OpenMode where
  input : Bool := false
  output : Bool := false
  trunc : Bool := false
  app : Bool := false

/-- The content after `std::basic_filebuf::open`, from the content before it, if there was
a file. An invalid combination of flags, or a missing file where one is needed, gives none. -/
def openFile (mode : OpenMode) (file : Option (List UInt8)) : Option (List UInt8) :=
  match mode.input, mode.output, mode.trunc, mode.app with
  | false, true, _, false => some []
  | true, true, true, false => some []
  | _, _, false, true => some (file.getD [])
  | true, _, false, false => file
  | _, _, _, _ => none

def wallWriterMode : OpenMode := { output := true }

structure WallFile where
  disk : Option (List UInt8) := none
  running : Bool := false
  deriving DecidableEq, Repr

/-- A lifetime constructs the writer, stores records and ends. Where the path cannot be
opened the constructor aborts. A crash may leave part of a record behind. -/
inductive LifetimeAction where
  | construct (opens : Bool)
  | store (d : WallData)
  | shutdown
  | crash (d : WallData) (kept : Nat)

namespace WallFile

def content (w : WallFile) : List UInt8 := w.disk.getD []

def append (w : WallFile) (data : List UInt8) : WallFile :=
  { w with disk := some ((WallWriter.mk w.content false).store data).file }

def step (w : WallFile) : LifetimeAction → Option WallFile
  | .construct opens =>
    if w.running then none
    else if opens then
      (openFile wallWriterMode w.disk).map fun bytes => ⟨some bytes, true⟩
    else some w
  | .store d => if w.running then some (w.append d.bytes) else none
  | .shutdown => if w.running then some { w with running := false } else none
  | .crash d kept =>
    if w.running then some { w.append (d.bytes.take kept) with running := false } else none

/-- At every later point of the run the file still begins with what it held before. -/
def OnlyGrows (acts : List LifetimeAction) : Prop :=
  ∀ as bs w v, as ++ bs <+: acts → exec step {} as = some w → exec step w bs = some v →
    w.content <+: v.content

def OpensEmpty (w : WallFile) (a : LifetimeAction) : Prop :=
  a = .construct true → w.running = false → w.content = []

variable {w v : WallFile}

theorem append_content (w : WallFile) (data : List UInt8) :
    (w.append data).content = w.content ++ data := by
  rw [append, WallWriter.store_of_good (WallWriter.mk w.content false) data rfl]
  rfl

theorem step_construct (hr : w.running = false) :
    w.step (.construct true) = some ⟨some [], true⟩ := by
  simp only [step, hr, Bool.false_eq_true, ↓reduceIte]
  rfl

theorem step_grows (hs : w.step a = some v) (hc : OpensEmpty w a) :
    w.content <+: v.content := by
  cases a with
  | construct opens =>
    cases hr : w.running with
    | true => simp only [step, hr, ↓reduceIte, reduceCtorEq] at hs
    | false =>
      cases opens with
      | true =>
        rw [hc rfl hr]
        exact List.nil_prefix
      | false =>
        simp only [step, hr, Bool.false_eq_true, ↓reduceIte, Option.some.injEq] at hs
        subst hs
        exact List.prefix_rfl
  | store d =>
    simp only [step, Option.ite_none_right_eq_some, Option.some.injEq] at hs
    rw [← hs.2, append_content]
    exact List.prefix_append _ _
  | shutdown =>
    simp only [step, Option.ite_none_right_eq_some, Option.some.injEq] at hs
    rw [← hs.2]
    exact List.prefix_rfl
  | crash d kept =>
    simp only [step, Option.ite_none_right_eq_some, Option.some.injEq] at hs
    rw [← hs.2]
    change _ <+: (w.append (d.bytes.take kept)).content
    rw [append_content]
    exact List.prefix_append _ _

theorem step_shrinks (hc : ¬ OpensEmpty w a) :
    ∃ v, w.step a = some v ∧ ¬ w.content <+: v.content := by
  simp only [OpensEmpty, not_forall] at hc
  obtain ⟨rfl, hr, hne⟩ := hc
  exact ⟨_, step_construct hr, fun h => hne (List.prefix_nil.1 h)⟩

/-- The log survives exactly the runs in which no lifetime opens a file that holds bytes. -/
theorem only_grows_iff (acts : List LifetimeAction) :
    OnlyGrows acts ↔ AllSteps step OpensEmpty {} acts := by
  have h : AllSteps step (fun w a => ∀ v, step w a = some v → w.content <+: v.content) {} acts ↔
      OnlyGrows acts :=
    allSteps_related_iff (R := fun w v : WallFile => w.content <+: v.content)
      (fun _ => List.prefix_rfl) (fun _ _ _ => List.IsPrefix.trans) {} acts
  refine h.symm.trans (allSteps_congr (I := fun _ => True) (fun _ _ _ _ _ => trivial) ?_ trivial)
  intro w a _
  constructor
  · intro hg
    by_contra hc
    obtain ⟨v, hs, hn⟩ := step_shrinks hc
    exact hn (hg v hs)
  · exact fun hc v hs => step_grows hs hc

/-- The second lifetime truncates the record of the first. -/
theorem only_grows_fails : ¬ ∀ acts, OnlyGrows acts := by
  intro h
  have hp := h [.construct true, .store ⟨0, true, .replicate 5 0, ⟨0, [], by decide⟩⟩, .shutdown,
    .construct true] [.construct true, .store ⟨0, true, .replicate 5 0, ⟨0, [], by decide⟩⟩,
    .shutdown] [.construct true] _ _ (List.prefix_refl _) rfl rfl
  exact absurd hp (by decide)

end WallFile
end Noctua.Wall
