import Noctua.Common
import Noctua.Library.PosixPath

namespace Noctua.Wall
open Posix
set_option autoImplicit true

def tmp : Name := [116, 109, 112]

/-- The `std::string` that the constructor of `wall_writer_t` makes: "/tmp/" and the file path. -/
def wallPath (filePath : Text) : Text := slash :: tmp ++ slash :: filePath

def openedPath (filePath : Text) : Text := cString (wallPath filePath)

/-- The file of a wall writer, as the names that lead to it from the root. -/
def wallFile (filePath : Text) : List Name := resolve [] (components (openedPath filePath))

/-- The part of the file path before its last slash, and the part after it. -/
def dirs (filePath : Text) : List Name := (components (cString filePath)).dropLast

def base (filePath : Text) : Name :=
  (components (cString filePath)).getLast (components_ne_nil _)

/-- The part before the last slash, read from "/tmp", ends there again. -/
def LeadsBack (filePath : Text) : Prop := resolve [tmp] (dirs filePath) = [tmp]

instance (filePath : Text) : Decidable (LeadsBack filePath) :=
  inferInstanceAs (Decidable (_ = _))

theorem components_openedPath (filePath : Text) :
    components (openedPath filePath) = [] :: tmp :: (dirs filePath ++ [base filePath]) := by
  have hnul : ∀ c ∈ slash :: tmp ++ [slash], c ≠ 0 := by simp [slash, tmp]
  have hcut : openedPath filePath = [] ++ slash :: (tmp ++ slash :: cString filePath) :=
    cString_append hnul filePath
  have htmp : slash ∉ tmp := by decide
  rw [hcut, components_append_slash List.not_mem_nil, components_append_slash htmp, dirs, base,
    List.dropLast_append_getLast]

theorem wallFile_eq (filePath : Text) :
    wallFile filePath = enter (resolve [tmp] (dirs filePath)) (base filePath) := by
  rw [wallFile, components_openedPath, resolve_cons, enter_nil, resolve_cons, resolve_concat]
  rfl

theorem isName_base {fs : FileSystem} (h : fs.Opens (openedPath filePath)) :
    IsName (base filePath) := by
  have hcs : components (openedPath filePath) = ([] :: tmp :: dirs filePath) ++ [base filePath] :=
    components_openedPath filePath
  exact h.isName hcs

theorem wallFile_isName (h : IsName (base filePath)) :
    wallFile filePath = resolve [tmp] (dirs filePath) ++ [base filePath] := by
  rw [wallFile_eq, enter_isName h]

theorem wallFile_leadsBack (h : IsName (base filePath)) (hl : LeadsBack filePath) :
    wallFile filePath = [tmp, base filePath] := by
  rw [wallFile_isName h, hl]
  rfl

/-- The file lies directly in "/tmp" only where the rest of the path leads back there. -/
theorem leadsBack_of_wallFile (h : IsName (base filePath)) (hw : wallFile filePath = [tmp, c]) :
    LeadsBack filePath := by
  rw [wallFile_isName h] at hw
  have hsplit : resolve [tmp] (dirs filePath) ++ [base filePath] = [tmp] ++ [c] := hw
  exact (List.append_inj' hsplit rfl).1

theorem components_plain (hn : 0 ∉ filePath) (hs : slash ∉ filePath) :
    components (cString filePath) = [filePath] := by
  have hcut : cString filePath = filePath := by
    have happend := cString_append (fun c hc he => hn (he ▸ hc)) []
    rw [List.append_nil] at happend
    exact happend.trans (List.append_nil filePath)
  rw [hcut]
  exact List.splitOn_eq_singleton hs

theorem leadsBack_plain (hn : 0 ∉ filePath) (hs : slash ∉ filePath) : LeadsBack filePath := by
  rw [LeadsBack, dirs, components_plain hn hs]
  rfl

theorem base_plain (hn : 0 ∉ filePath) (hs : slash ∉ filePath) : base filePath = filePath := by
  simp only [base, components_plain hn hs, List.getLast_singleton]

end Noctua.Wall
