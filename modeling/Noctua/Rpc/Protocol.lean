import Noctua.Common

namespace Noctua.Rpc
set_option autoImplicit true

def rpcMagic : Nat := 0x4E4F4355

namespace Opcode
def push : UInt8 := 0x01
def pull : UInt8 := 0x02
def delete : UInt8 := 0x03
end Opcode

inductive ErrorCode where
  | ok
  | invalidTopicName
  | invalidPartitionId
  | topicNotFound
  | partitionNotFound
  | emptyPartition
  | messageNotFound
  | internalError
  deriving DecidableEq, Repr

def ErrorCode.value : ErrorCode → UInt16
  | .ok => 0x0000
  | .invalidTopicName => 0x0001
  | .invalidPartitionId => 0x0002
  | .topicNotFound => 0x0003
  | .partitionNotFound => 0x0004
  | .emptyPartition => 0x0005
  | .messageNotFound => 0x0006
  | .internalError => 0xFFFF

/-- The fields of `request_header_t`, at offsets 0, 4, 6, 8 and 10 of its 12 bytes. -/
structure RequestHeader where
  magic : Nat
  opcode : UInt8
  topicNameLen : UInt16
  partitionId : UInt16
  messageLen : UInt16
  deriving DecidableEq, Repr

def sizeofRequestHeader : Nat := 12

/-- The value that the bytes of a `request_header_t` have; the byte at offset 5 is padding. -/
def RequestHeader.ofBytes (bs : List UInt8) : RequestHeader where
  magic := Octets.decode (bs.take 4)
  opcode := bs.getD 4 0
  topicNameLen := UInt16.ofNat (Octets.decode ((bs.drop 6).take 2))
  partitionId := UInt16.ofNat (Octets.decode ((bs.drop 8).take 2))
  messageLen := UInt16.ofNat (Octets.decode ((bs.drop 10).take 2))

def receiveBufferSize : Nat := 65536

/-- A request that `handle_requests` passes on to `handle_request`. -/
structure Frame where
  opcode : UInt8
  partitionId : UInt16
  topicName : Text
  message : Text
  fits : topicName.length + message.length ≤ receiveBufferSize - sizeofRequestHeader
  deriving DecidableEq, Repr

inductive Received where
  | closed
  | badMagic
  | tooLarge (opcode : UInt8)
  | request (f : Frame) (rest : List UInt8)
  deriving DecidableEq, Repr

/-- One turn of the loop in `handle_requests`: header, magic, size check, payload. A read
that meets the end of the stream fails and closes the session. -/
def receive (input : List UInt8) : Received :=
  let header := RequestHeader.ofBytes (input.take sizeofRequestHeader)
  let body := input.drop sizeofRequestHeader
  let totalDataLen := header.topicNameLen.toNat + header.messageLen.toNat
  if input.length < sizeofRequestHeader then .closed
  else if header.magic ≠ rpcMagic then .badMagic
  else if h : totalDataLen > receiveBufferSize - sizeofRequestHeader then
    .tooLarge header.opcode
  else if body.length < totalDataLen then .closed
  else
    .request
      { opcode := header.opcode
        partitionId := header.partitionId
        topicName := body.take header.topicNameLen.toNat
        message := (body.drop header.topicNameLen.toNat).take header.messageLen.toNat
        fits := by
          have h₁ := List.length_take_le header.topicNameLen.toNat body
          have h₂ := List.length_take_le header.messageLen.toNat
            (body.drop header.topicNameLen.toNat)
          omega }
      (body.drop totalDataLen)

end Noctua.Rpc
