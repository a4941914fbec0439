import Noctua.Rpc.Protocol

namespace Noctua.Rpc
set_option autoImplicit true

/-- The object representation of a `request_header_t`, with its padding byte. -/
def RequestHeader.bytes (h : RequestHeader) (padding : UInt8) : List UInt8 :=
  Octets.encode 4 h.magic ++ ([h.opcode, padding] ++ (Octets.encode 2 h.topicNameLen.toNat ++
    (Octets.encode 2 h.partitionId.toNat ++ Octets.encode 2 h.messageLen.toNat)))

@[simp] theorem RequestHeader.bytes_length (h : RequestHeader) (padding : UInt8) :
    (h.bytes padding).length = sizeofRequestHeader := by
  simp only [bytes, List.length_append, Octets.encode_length]
  rfl

theorem RequestHeader.ofBytes_bytes (h : RequestHeader) (hm : h.magic < 2 ^ 32)
    (padding : UInt8) : ofBytes (h.bytes padding) = h := by
  change (⟨Octets.decode (Octets.encode 4 h.magic), h.opcode,
    UInt16.ofNat (Octets.decode (Octets.encode 2 h.topicNameLen.toNat)),
    UInt16.ofNat (Octets.decode (Octets.encode 2 h.partitionId.toNat)),
    UInt16.ofNat (Octets.decode (Octets.encode 2 h.messageLen.toNat))⟩ : RequestHeader) = h
  rw [Octets.decode_encode hm, Octets.decode_uint16, Octets.decode_uint16, Octets.decode_uint16]

section
variable (padding opcode : UInt8) (topicName : Text) (partitionId : UInt16) (message : Text)

/-- The header of `send_request`; the two casts to `uint16_t` drop the high bits. -/
def requestHeader : RequestHeader where
  magic := rpcMagic
  opcode := opcode
  topicNameLen := UInt16.ofNat topicName.length
  partitionId := partitionId
  messageLen := UInt16.ofNat message.length

/-- The size that `send_request` gives its buffer. -/
def totalSize : Nat := sizeofRequestHeader + (UInt16.ofNat topicName.length).toNat +
  (UInt16.ofNat message.length).toNat

/-- The buffer of `send_request`, at address 0, after its three `memcpy` calls. -/
def sendBuffer : RawMemory :=
  let m : RawMemory := ⟨fun _ => 0, []⟩
  let offset := 0
  let m := m.memcpy offset ((requestHeader opcode topicName partitionId message).bytes padding)
  let offset := offset + sizeofRequestHeader
  let m := m.memcpy offset topicName
  let offset := offset + topicName.length
  m.memcpy offset message

/-- The bytes that `send_request` writes to the socket. -/
def sendRequest : List UInt8 :=
  (sendBuffer padding opcode topicName partitionId message).read 0 (totalSize topicName message)

/-- Narrowing a length leaves no room for what it drops. -/
theorem writesInside_sendBuffer :
    (sendBuffer padding opcode topicName partitionId message).WritesInside 0
      (totalSize topicName message) ↔
        topicName.length < 2 ^ 16 ∧ message.length < 2 ^ 16 := by
  simp only [sendBuffer, RawMemory.writesInside_memcpy, RequestHeader.bytes_length, totalSize,
    UInt16.toNat_ofNat']
  constructor
  · rintro ⟨⟨-, htopic⟩, hmessage⟩
    rw [← List.length_eq_zero_iff] at htopic hmessage
    omega
  · rintro ⟨htopic, hmessage⟩
    rw [Nat.mod_eq_of_lt htopic, Nat.mod_eq_of_lt hmessage]
    refine ⟨⟨⟨RawMemory.writesInside_fresh _ _ _, ?_⟩, ?_⟩, ?_⟩ <;> exact .inr (by omega)

theorem sendRequest_eq (htopic : topicName.length < 2 ^ 16) (hmessage : message.length < 2 ^ 16) :
    sendRequest padding opcode topicName partitionId message =
      (requestHeader opcode topicName partitionId message).bytes padding ++
        (topicName ++ message) := by
  let header := requestHeader opcode topicName partitionId message
  have hr : (RawMemory.memcpy ⟨fun _ => 0, []⟩ 0 (header.bytes padding)).read 0
      sizeofRequestHeader = header.bytes padding := by
    rw [← RequestHeader.bytes_length header padding, RawMemory.read_memcpy]
  simp only [sendRequest, sendBuffer, totalSize, UInt16.toNat_ofNat_of_lt' htopic,
    UInt16.toNat_ofNat_of_lt' hmessage]
  have extend (m : RawMemory) := m.read_memcpy_extend 0
  simp only [Nat.zero_add] at extend ⊢
  rw [extend, extend, List.append_assoc]
  exact congrArg (· ++ _) hr

theorem ofBytes_sendRequest (htopic : topicName.length < 2 ^ 16)
    (hmessage : message.length < 2 ^ 16) : RequestHeader.ofBytes
      ((sendRequest padding opcode topicName partitionId message).take sizeofRequestHeader) =
        requestHeader opcode topicName partitionId message := by
  rw [sendRequest_eq _ _ _ _ _ htopic hmessage, List.take_left' (RequestHeader.bytes_length ..)]
  exact RequestHeader.ofBytes_bytes _ (show rpcMagic < 2 ^ 32 by decide) padding

theorem drop_sendRequest (htopic : topicName.length < 2 ^ 16)
    (hmessage : message.length < 2 ^ 16) :
    (sendRequest padding opcode topicName partitionId message).drop sizeofRequestHeader =
      topicName ++ message := by
  rw [sendRequest_eq _ _ _ _ _ htopic hmessage, List.drop_left' (RequestHeader.bytes_length ..)]

end

inductive ClientCall where
  | sendPush (topicName : Text) (partitionId : UInt16) (message : Text)
  | sendPull (topicName : Text) (partitionId : UInt16)
  | sendDelete (topicName : Text) (partitionId : UInt16) (message : Text)
  deriving DecidableEq, Repr

namespace ClientCall

def opcode : ClientCall → UInt8
  | sendPush _ _ _ => Opcode.push
  | sendPull _ _ => Opcode.pull
  | sendDelete _ _ _ => Opcode.delete

def topicName : ClientCall → Text
  | sendPush name _ _ | sendPull name _ | sendDelete name _ _ => name

def partitionId : ClientCall → UInt16
  | sendPush _ p _ | sendPull _ p | sendDelete _ p _ => p

def message : ClientCall → Text
  | sendPush _ _ msg | sendDelete _ _ msg => msg
  | sendPull _ _ => []

end ClientCall

/-- What `send_request` is called with: the topic and the message are no longer than a 16-bit
length can tell, and the padding byte of the header is whatever it was. -/
structure SentRequest where
  opcode : UInt8
  topicName : Text
  partitionId : UInt16
  message : Text
  padding : UInt8
  topicShort : topicName.length < 2 ^ 16
  messageShort : message.length < 2 ^ 16

def ClientCall.request (call : ClientCall) (padding : UInt8)
    (topicShort : call.topicName.length < 2 ^ 16) (messageShort : call.message.length < 2 ^ 16) :
    SentRequest :=
  ⟨call.opcode, call.topicName, call.partitionId, call.message, padding, topicShort, messageShort⟩

namespace SentRequest

def header (r : SentRequest) : RequestHeader :=
  requestHeader r.opcode r.topicName r.partitionId r.message

def bytes (r : SentRequest) : List UInt8 :=
  sendRequest r.padding r.opcode r.topicName r.partitionId r.message

theorem bytes_eq (r : SentRequest) :
    r.bytes = r.header.bytes r.padding ++ (r.topicName ++ r.message) :=
  sendRequest_eq r.padding r.opcode r.topicName r.partitionId r.message r.topicShort r.messageShort

end SentRequest

/-- The fields of `response_header_t`, at offsets 0, 4, 6 and 8 of its 12 bytes. -/
structure ResponseHeader where
  magic : Nat
  opcode : UInt8
  errorCode : UInt16
  messageLen : UInt16
  deriving DecidableEq, Repr

def sizeofResponseHeader : Nat := 12

def ResponseHeader.ofBytes (bs : List UInt8) : ResponseHeader where
  magic := Octets.decode (bs.take 4)
  opcode := bs.getD 4 0
  errorCode := UInt16.ofNat (Octets.decode ((bs.drop 6).take 2))
  messageLen := UInt16.ofNat (Octets.decode ((bs.drop 8).take 2))

/-- A read that meets the end of the stream throws. -/
def receiveResponse (input : List UInt8) : Option (ResponseHeader × List UInt8) :=
  if input.length < sizeofResponseHeader then none
  else some (.ofBytes (input.take sizeofResponseHeader), input.drop sizeofResponseHeader)

def receiveResponseData (response : ResponseHeader) (input : List UInt8) :
    Option (Option Text × List UInt8) :=
  if response.messageLen = 0 then some (none, input)
  else if input.length < response.messageLen.toNat then none
  else some (some (input.take response.messageLen.toNat),
    input.drop response.messageLen.toNat)

/-- What a client has of `n` responses when it receives each with its data, and the bytes that
are left. -/
def receiveResponses : Nat → List UInt8 →
    Option (List (ResponseHeader × Option Text) × List UInt8)
  | 0, input => some ([], input)
  | n + 1, input =>
    (receiveResponse input).bind fun (header, input) =>
      (receiveResponseData header input).bind fun (data, input) =>
        (receiveResponses n input).map fun (rs, input) => ((header, data) :: rs, input)

end Noctua.Rpc
