import Mathlib.Logic.Function.Basic
import Noctua.Library.PosixPath

namespace Posix
set_option autoImplicit true

/-- A file after `data` has been written at `pos`; what was never written reads as zero. -/
def overwrite (file : List UInt8) (pos : Nat) (data : List UInt8) : List UInt8 :=
  if data = [] then file
  else file.take pos ++ (List.replicate (pos - file.length) 0 ++
    (data ++ file.drop (pos + data.length)))

theorem overwrite_length (file data : List UInt8) :
    overwrite file file.length data = file ++ data := by
  rw [overwrite]
  split
  · rename_i hd
    rw [hd, List.append_nil]
  · rw [List.take_length, Nat.sub_self, List.drop_of_length_le (Nat.le_add_right _ _),
      List.append_nil]
    rfl

abbrev Disk := List Name → List UInt8

namespace Disk

def truncate (d : Disk) (path : List Name) : Disk := Function.update d path []

def write (d : Disk) (path : List Name) (pos : Nat) (data : List UInt8) : Disk :=
  Function.update d path (overwrite (d path) pos data)

variable {d : Disk} {path other : List Name}

theorem truncate_self : d.truncate path path = [] := Function.update_self ..

theorem truncate_ne (h : other ≠ path) : d.truncate path other = d other :=
  Function.update_of_ne h ..

theorem write_ne (h : other ≠ path) : d.write path pos data other = d other :=
  Function.update_of_ne h ..

theorem write_end (h : d path = file) : d.write path file.length data path = file ++ data := by
  subst h
  exact (Function.update_self ..).trans (overwrite_length _ _)

end Disk
end Posix
