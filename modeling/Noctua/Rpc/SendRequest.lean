import Noctua.Rpc.Client

namespace Noctua.Rpc
set_option autoImplicit true

section
variable (padding opcode : UInt8) (topicName : Text) (partitionId : UInt16) (message : Text)

/-- Nothing is written outside the buffer, and the bytes sent are a header with two lengths and
then a topic and a message of these lengths. -/
structure EncodesInside : Prop where
  inside : (sendBuffer padding opcode topicName partitionId message).WritesInside 0
    (totalSize topicName message)
  topicNameLen : (RequestHeader.ofBytes ((sendRequest padding opcode topicName partitionId
    message).take sizeofRequestHeader)).topicNameLen.toNat = topicName.length
  messageLen : (RequestHeader.ofBytes ((sendRequest padding opcode topicName partitionId
    message).take sizeofRequestHeader)).messageLen.toNat = message.length
  follow : (sendRequest padding opcode topicName partitionId message).drop sizeofRequestHeader =
    topicName ++ message

/-- The encoder is right exactly for topics and messages whose lengths fit in 16 bits. -/
theorem encodes_inside_iff : EncodesInside padding opcode topicName partitionId message ↔
    topicName.length < 2 ^ 16 ∧ message.length < 2 ^ 16 := by
  constructor
  · intro h
    exact (writesInside_sendBuffer padding opcode topicName partitionId message).1 h.inside
  · rintro ⟨htopic, hmessage⟩
    constructor
    case inside => exact (writesInside_sendBuffer ..).2 ⟨htopic, hmessage⟩
    case topicNameLen =>
      rw [ofBytes_sendRequest _ _ _ _ _ htopic hmessage]
      exact UInt16.toNat_ofNat_of_lt' htopic
    case messageLen =>
      rw [ofBytes_sendRequest _ _ _ _ _ htopic hmessage]
      exact UInt16.toNat_ofNat_of_lt' hmessage
    case follow => exact drop_sendRequest _ _ _ _ _ htopic hmessage

end

/-- A topic name of 65536 bytes is copied whole into a buffer of twelve. -/
theorem encodes_inside_fails : ¬ ∀ padding opcode topicName partitionId message,
    EncodesInside padding opcode topicName partitionId message := by
  intro h
  have hi := (h 0 Opcode.push (List.replicate (2 ^ 16) 97) 0 []).inside
  have hs := ((writesInside_sendBuffer ..).1 hi).1
  rw [List.length_replicate] at hs
  exact Nat.lt_irrefl _ hs

end Noctua.Rpc
