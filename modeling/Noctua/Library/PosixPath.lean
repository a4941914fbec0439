import Mathlib.Data.List.Basic

namespace Posix
set_option autoImplicit true

abbrev Name := List UInt8

def slash : UInt8 := 47
def dot : Name := [46]
def dotDot : Name := [46, 46]

/-- A `char*` ends at the first NUL. -/
def cString (s : List UInt8) : List UInt8 := s.takeWhile (· != 0)

def components (path : List UInt8) : List Name := path.splitOn slash

/-- Where one component leads from a directory; the root is its own parent. -/
def enter (dir : List Name) (c : Name) : List Name :=
  if c = [] ∨ c = dot then dir else if c = dotDot then dir.dropLast else dir ++ [c]

def resolve (dir : List Name) (cs : List Name) : List Name := cs.foldl enter dir

def nameMax : Nat := 255

structure FileSystem where
  isDirectory : List Name → Bool
  refuses : List UInt8 → Bool
  root : isDirectory [] = true
  parent : ∀ dir, isDirectory dir = true → isDirectory dir.dropLast = true

/-- An absolute path can be opened for writing: all parents are there, it is no directory, every
name is short enough, and nothing else is in the way. -/
structure FileSystem.Opens (fs : FileSystem) (path : List UInt8) : Prop where
  parents : ∀ k < (components path).length,
    fs.isDirectory (resolve [] ((components path).take k)) = true
  notDirectory : fs.isDirectory (resolve [] (components path)) = false
  short : ∀ c ∈ components path, c.length ≤ nameMax
  permitted : fs.refuses path = false

instance (fs : FileSystem) (path : List UInt8) : Decidable (fs.Opens path) :=
  decidable_of_iff ((∀ k < (components path).length,
      fs.isDirectory (resolve [] ((components path).take k)) = true) ∧
    fs.isDirectory (resolve [] (components path)) = false ∧
      (∀ c ∈ components path, c.length ≤ nameMax) ∧ fs.refuses path = false)
    ⟨fun h => ⟨h.1, h.2.1, h.2.2.1, h.2.2.2⟩,
      fun h => ⟨h.parents, h.notDirectory, h.short, h.permitted⟩⟩

/-- The name of a directory entry. -/
def IsName (c : Name) : Prop := c ≠ [] ∧ c ≠ dot ∧ c ≠ dotDot

theorem components_ne_nil (path : List UInt8) : components path ≠ [] := List.splitOn_ne_nil _ _

theorem components_append_slash (h : slash ∉ c) (path : List UInt8) :
    components (c ++ slash :: path) = c :: components path :=
  List.splitOn_append_cons_self_of_not_mem h path

theorem cString_append (h : ∀ c ∈ s, c ≠ 0) (t : List UInt8) :
    cString (s ++ t) = s ++ cString t :=
  List.takeWhile_append_of_pos fun c hc => bne_iff_ne.2 (h c hc)

theorem resolve_cons (dir : List Name) (c : Name) (cs : List Name) :
    resolve dir (c :: cs) = resolve (enter dir c) cs := rfl

theorem resolve_concat (dir : List Name) (cs : List Name) (c : Name) :
    resolve dir (cs ++ [c]) = enter (resolve dir cs) c := by
  rw [resolve, List.foldl_append]
  rfl

theorem enter_nil (dir : List Name) : enter dir [] = dir := if_pos (.inl rfl)

theorem enter_isName (h : IsName c) (dir : List Name) : enter dir c = dir ++ [c] := by
  obtain ⟨hn, hd, hdd⟩ := h
  rw [enter, if_neg (not_or.2 ⟨hn, hd⟩), if_neg hdd]

theorem FileSystem.isDirectory_enter (fs : FileSystem) (hd : fs.isDirectory dir = true)
    (hn : ¬ IsName c) : fs.isDirectory (enter dir c) = true := by
  rw [enter]
  split
  · exact hd
  · rename_i hc
    split
    · exact fs.parent dir hd
    · rename_i hdd
      obtain ⟨hnil, hdot⟩ := not_or.1 hc
      exact (hn ⟨hnil, hdot, hdd⟩).elim

theorem FileSystem.Opens.isName {fs : FileSystem} (h : fs.Opens path)
    (hc : components path = cs ++ [c]) : IsName c := by
  have hparent := h.parents cs.length (by rw [hc, List.length_append]; exact Nat.lt_succ_self _)
  have hfile := h.notDirectory
  rw [hc, List.take_left] at hparent
  rw [hc, resolve_concat] at hfile
  by_contra hn
  rw [fs.isDirectory_enter hparent hn] at hfile
  cases hfile

end Posix
