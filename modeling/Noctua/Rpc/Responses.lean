import Noctua.Rpc.Client
import Noctua.Rpc.Handlers

namespace Noctua.Rpc
set_option autoImplicit true

/-- The object representation of a `response_header_t`; the padding bytes are at offsets 5, 10
and 11. -/
def ResponseHeader.bytes (h : ResponseHeader) (padding : Vector UInt8 3) : List UInt8 :=
  Octets.encode 4 h.magic ++ ([h.opcode, padding[0]] ++ (Octets.encode 2 h.errorCode.toNat ++
    (Octets.encode 2 h.messageLen.toNat ++ [padding[1], padding[2]])))

@[simp] theorem ResponseHeader.bytes_length (h : ResponseHeader) (padding : Vector UInt8 3) :
    (h.bytes padding).length = sizeofResponseHeader := by
  simp only [bytes, List.length_append, Octets.encode_length]
  rfl

theorem ResponseHeader.ofBytes_bytes (h : ResponseHeader) (hm : h.magic < 2 ^ 32)
    (padding : Vector UInt8 3) : ofBytes (h.bytes padding) = h := by
  change (⟨Octets.decode (Octets.encode 4 h.magic), h.opcode,
    UInt16.ofNat (Octets.decode (Octets.encode 2 h.errorCode.toNat)),
    UInt16.ofNat (Octets.decode (Octets.encode 2 h.messageLen.toNat))⟩ : ResponseHeader) = h
  rw [Octets.decode_encode hm, Octets.decode_uint16, Octets.decode_uint16]

namespace Response

/-- The header that the senders fill in; the length of the data is narrowed to 16 bits. -/
def header (r : Response) : ResponseHeader where
  magic := rpcMagic
  opcode := r.opcode
  errorCode := r.errorCode.value
  messageLen := UInt16.ofNat r.data.length

/-- The bytes that a sender writes: the header and the data. -/
def bytes (r : Response) (padding : Vector UInt8 3) : List UInt8 :=
  r.header.bytes padding ++ r.data

def received (r : Response) : ResponseHeader × Option Text :=
  (r.header, if r.data = [] then none else some r.data)

def Short (r : Response) : Prop := r.data.length < 2 ^ 16

variable {r : Response}

theorem receiveResponse_bytes (r : Response) (padding : Vector UInt8 3) (rest : List UInt8) :
    receiveResponse (r.bytes padding ++ rest) = some (r.header, r.data ++ rest) := by
  have hlen := r.header.bytes_length padding
  have hlong : ¬ (r.bytes padding ++ rest).length < sizeofResponseHeader := by
    rw [bytes, List.append_assoc, List.length_append, hlen]
    exact Nat.not_lt.2 (Nat.le_add_right _ _)
  rw [receiveResponse, if_neg hlong, bytes, List.append_assoc, List.take_left' hlen,
    List.drop_left' hlen, r.header.ofBytes_bytes (show rpcMagic < 2 ^ 32 by decide)]

theorem receiveResponseData_header (hs : r.Short) (rest : List UInt8) :
    receiveResponseData r.header (r.data ++ rest) = some (r.received.2, rest) := by
  have hlen : r.header.messageLen.toNat = r.data.length := UInt16.toNat_ofNat_of_lt' hs
  rw [receiveResponseData]
  by_cases hd : r.data = []
  · have hz : r.header.messageLen = 0 := UInt16.toNat_inj.1 (hlen.trans (congrArg _ hd))
    rw [if_pos hz, received, if_pos hd, hd, List.nil_append]
  · have hz : r.header.messageLen ≠ 0 := by
      intro hz
      rw [hz] at hlen
      exact hd (List.length_eq_zero_iff.1 hlen.symm)
    have hlong : ¬ (r.data ++ rest).length < r.data.length := by
      rw [List.length_append]
      exact Nat.not_lt.2 (Nat.le_add_right _ _)
    rw [if_neg hz, hlen, if_neg hlong, List.take_left, List.drop_left, received, if_neg hd]

theorem receiveResponses_bytes (sent : List (Response × Vector UInt8 3))
    (hs : ∀ x ∈ sent, x.1.Short) :
    receiveResponses sent.length (sent.flatMap fun x => x.1.bytes x.2) =
      some (sent.map fun x => x.1.received, []) := by
  induction sent with
  | nil => rfl
  | cons x sent ih =>
    obtain ⟨hx, hs⟩ := List.forall_mem_cons.1 hs
    rw [List.flatMap_cons, List.length_cons, receiveResponses, receiveResponse_bytes,
      Option.bind_some]
    simp only [receiveResponseData_header hx, Option.bind_some, ih hs, Option.map_some,
      List.map_cons]
    rfl

theorem receiveResponses_more (sent : List (Response × Vector UInt8 3))
    (hs : ∀ x ∈ sent, x.1.Short) (k : Nat) :
    receiveResponses (sent.length + (k + 1)) (sent.flatMap fun x => x.1.bytes x.2) = none := by
  induction sent with
  | nil => rw [List.length_nil, Nat.zero_add, receiveResponses]; rfl
  | cons x sent ih =>
    obtain ⟨hx, hs⟩ := List.forall_mem_cons.1 hs
    rw [List.flatMap_cons, List.length_cons, Nat.succ_add, receiveResponses,
      receiveResponse_bytes, Option.bind_some]
    simp only [receiveResponseData_header hx, Option.bind_some, ih hs, Option.map_none]

end Response
end Noctua.Rpc
