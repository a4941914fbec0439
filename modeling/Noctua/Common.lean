import Noctua.Library.Octets
import Noctua.Library.RawMemory

namespace Noctua
set_option autoImplicit true

abbrev Text := List UInt8

def invalidTopicId : UInt16 := 65535

/-- A `std::string_view` on a message: the address it points to and the text found there.
The length comes from a 16-bit field. -/
structure StringView where
  address : UInt64
  text : Text
  short : text.length < 2 ^ 16
  deriving DecidableEq, Repr

/-- What the accessors of a `request_t` return. -/
structure Request where
  topicName : Text
  partitionId : UInt16
  message : StringView
  deriving DecidableEq, Repr

/-- The request with a one-byte message to partition 0 of the topic "a". -/
def Request.ofByte (c : UInt8) : Request :=
  ⟨[97], 0, 0, [c], show 1 < 2 ^ 16 by decide⟩

namespace RequestLayout

/-- The three 16-bit fields of a `request_t`, before the topic and the message. -/
def sizeofFields : Nat := 6

def readUInt16 (m : RawMemory) (p : Nat) : UInt16 := UInt16.ofNat (Octets.decode (m.read p 2))

def topicNameLen (m : RawMemory) (request : Nat) : UInt16 := readUInt16 m request

def partitionId (m : RawMemory) (request : Nat) : UInt16 := readUInt16 m (request + 2)

def messageLen (m : RawMemory) (request : Nat) : UInt16 := readUInt16 m (request + 4)

def topicName (m : RawMemory) (request : Nat) : Text :=
  m.read (request + sizeofFields) (topicNameLen m request).toNat

def messageAddress (m : RawMemory) (request : Nat) : Nat :=
  request + sizeofFields + (topicNameLen m request).toNat

def messageView (m : RawMemory) (request : Nat) : Text :=
  m.read (messageAddress m request) (messageLen m request).toNat

theorem messageView_short (m : RawMemory) (request : Nat) :
    (messageView m request).length < 2 ^ 16 := by
  rw [messageView, RawMemory.read_length]
  exact (messageLen m request).toNat_lt

end RequestLayout
end Noctua
