import Noctua.Common

namespace Noctua.Wall
set_option autoImplicit true

def wallDataMagic : Nat := 0x4FE55045

/-- A `wall_data_t`; the five bytes after `is_push_operation` are padding and keep whatever
the stack held. -/
structure WallData where
  identifier : UInt16
  isPushOperation : Bool
  padding : Vector UInt8 5
  message : StringView
  deriving DecidableEq, Repr

def sizeofWallData : Nat := 32

/-- The object representation: the string view is a length and a pointer, not the text. -/
def WallData.bytes (d : WallData) : List UInt8 :=
  Octets.encode 8 wallDataMagic ++ (Octets.encode 2 d.identifier.toNat ++
    (Octets.encode 1 d.isPushOperation.toNat ++ (d.padding.toList ++
      (Octets.encode 8 d.message.text.length ++ Octets.encode 8 d.message.address.toNat))))

@[simp] theorem WallData.bytes_length (d : WallData) : d.bytes.length = sizeofWallData := by
  simp only [bytes, List.length_append, Octets.encode_length, Vector.length_toList]
  rfl

theorem WallData.bytes_eq_iff (d e : WallData) : d.bytes = e.bytes ↔
    d.identifier = e.identifier ∧ d.isPushOperation = e.isPushOperation ∧
      d.padding = e.padding ∧ d.message.text.length = e.message.text.length ∧
        d.message.address = e.message.address := by
  have hlen (v : StringView) : v.text.length < 256 ^ 8 := Nat.lt_trans v.short (by decide)
  have haddr (v : StringView) : v.address.toNat < 256 ^ 8 := v.address.toNat_lt
  have hid (d : WallData) : d.identifier.toNat < 256 ^ 2 := d.identifier.toNat_lt
  have hpush (b : Bool) : b.toNat < 256 ^ 1 := Nat.lt_trans b.toNat_lt (by decide)
  have htoNat (b c : Bool) : b.toNat = c.toNat ↔ b = c := by
    cases b <;> cases c <;> decide
  simp only [bytes]
  rw [List.append_eq_append_iff_of_size_eq_left rfl,
    List.append_eq_append_iff_of_size_eq_left (by simp only [Octets.encode_length]),
    List.append_eq_append_iff_of_size_eq_left (by simp only [Octets.encode_length]),
    List.append_eq_append_iff_of_size_eq_left (by simp only [Vector.length_toList]),
    List.append_eq_append_iff_of_size_eq_left (by simp only [Octets.encode_length]),
    Octets.encode_inj (hid d) (hid e), Octets.encode_inj (hpush _) (hpush _),
    Octets.encode_inj (hlen _) (hlen _), Octets.encode_inj (haddr _) (haddr _),
    UInt16.toNat_inj, UInt64.toNat_inj, Vector.toList_inj, htoNat]
  exact ⟨fun h => h.2, fun h => ⟨rfl, h⟩⟩

/-- A `wall_writer_t`: what it has written to its file since it opened it, and whether the stream
is in a failed state. -/
structure WallWriter where
  file : List UInt8 := []
  failed : Bool := false
  deriving DecidableEq, Repr

/-- `write` and `flush`; a stream in a failed state writes nothing. -/
def WallWriter.store (w : WallWriter) (data : List UInt8) : WallWriter :=
  if w.failed then w else { w with file := w.file ++ data }

/-- A store that fails after `kept` of the bytes have reached the file. -/
def WallWriter.storeFails (w : WallWriter) (data : List UInt8) (kept : Nat) : WallWriter :=
  if w.failed then w else ⟨w.file ++ data.take kept, true⟩

theorem WallWriter.store_of_good (w : WallWriter) (data : List UInt8) (h : w.failed = false) :
    w.store data = ⟨w.file ++ data, false⟩ := by
  simp only [store, h, Bool.false_eq_true, ↓reduceIte]

theorem WallWriter.prefix_store (w : WallWriter) (data : List UInt8) :
    w.file <+: (w.store data).file := by
  rw [store]
  split
  · exact List.prefix_refl _
  · exact List.prefix_append _ _

theorem WallWriter.prefix_storeFails (w : WallWriter) (data : List UInt8) (kept : Nat) :
    w.file <+: (w.storeFails data kept).file := by
  rw [storeFails]
  split
  · exact List.prefix_refl _
  · exact List.prefix_append _ _

@[simp] theorem WallWriter.store_failed (w : WallWriter) (data : List UInt8) :
    (w.store data).failed = w.failed := by
  rw [store]
  split <;> rfl

@[simp] theorem WallWriter.storeFails_failed (w : WallWriter) (data : List UInt8) (k : Nat) :
    (w.storeFails data k).failed = true := by
  rw [storeFails]
  split
  · assumption
  · rfl

end Noctua.Wall
