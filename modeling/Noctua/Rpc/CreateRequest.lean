import Noctua.Rpc.Protocol

namespace Noctua.Rpc
open RequestLayout
set_option autoImplicit true

def requestBufferSize : Nat := 1024

def createRequest (m : RawMemory) (buffer : Nat) (topicName : Text) (partitionId : UInt16)
    (message : Text) : RawMemory :=
  let offset := buffer
  let topicNameLen := UInt16.ofNat topicName.length
  let m := m.memcpy offset (Octets.encode 2 topicNameLen.toNat)
  let offset := offset + 2
  let m := m.memcpy offset (Octets.encode 2 partitionId.toNat)
  let offset := offset + 2
  let messageLen := UInt16.ofNat message.length
  let m := m.memcpy offset (Octets.encode 2 messageLen.toNat)
  let offset := offset + 2
  let m := m.memcpy offset topicName
  let offset := offset + topicName.length
  m.memcpy offset message

/-- The handlers' call of `create_request` on a fresh `request_buffer`. -/
def handlerMemory (cell : Nat → UInt8) (buffer : Nat) (f : Frame) : RawMemory :=
  createRequest ⟨cell, []⟩ buffer f.topicName f.partitionId f.message

theorem Frame.topicName_short (f : Frame) : f.topicName.length < 2 ^ 16 := by
  have h := f.fits
  simp only [receiveBufferSize, sizeofRequestHeader] at h
  omega

theorem Frame.message_short (f : Frame) : f.message.length < 2 ^ 16 := by
  have h := f.fits
  simp only [receiveBufferSize, sizeofRequestHeader] at h
  omega

theorem readUInt16_memcpy (m : RawMemory) (p : Nat) (v : UInt16) :
    readUInt16 (m.memcpy p (Octets.encode 2 v.toNat)) p = v := by
  have h := m.read_memcpy p (Octets.encode 2 v.toNat)
  rw [Octets.encode_length] at h
  rw [readUInt16, h, Octets.decode_uint16]

theorem readUInt16_memcpy_of_disjoint (m : RawMemory) (src : List UInt8)
    (h : p + 2 ≤ dst ∨ dst + src.length ≤ p) :
    readUInt16 (m.memcpy dst src) p = readUInt16 m p := by
  rw [readUInt16, readUInt16, m.read_memcpy_of_disjoint src h]

section
variable (m : RawMemory) (buffer : Nat) (topicName : Text) (pid : UInt16) (message : Text)

theorem topicNameLen_createRequest :
    topicNameLen (createRequest m buffer topicName pid message) buffer =
      UInt16.ofNat topicName.length := by
  simp only [topicNameLen, createRequest]
  rw [readUInt16_memcpy_of_disjoint _ _ (.inl (by omega)),
    readUInt16_memcpy_of_disjoint _ _ (.inl (by omega)),
    readUInt16_memcpy_of_disjoint _ _ (.inl (by omega)),
    readUInt16_memcpy_of_disjoint _ _ (.inl (by omega)), readUInt16_memcpy]

theorem partitionId_createRequest :
    partitionId (createRequest m buffer topicName pid message) buffer = pid := by
  simp only [partitionId, createRequest]
  rw [readUInt16_memcpy_of_disjoint _ _ (.inl (by omega)),
    readUInt16_memcpy_of_disjoint _ _ (.inl (by omega)),
    readUInt16_memcpy_of_disjoint _ _ (.inl (by omega)), readUInt16_memcpy]

theorem messageLen_createRequest :
    messageLen (createRequest m buffer topicName pid message) buffer =
      UInt16.ofNat message.length := by
  simp only [messageLen, createRequest]
  rw [readUInt16_memcpy_of_disjoint _ _ (.inl (by omega)),
    readUInt16_memcpy_of_disjoint _ _ (.inl (by omega)), readUInt16_memcpy]

theorem topicName_createRequest (h : topicName.length < 2 ^ 16) :
    RequestLayout.topicName (createRequest m buffer topicName pid message) buffer =
      topicName := by
  rw [RequestLayout.topicName, topicNameLen_createRequest, UInt16.toNat_ofNat_of_lt' h]
  simp only [createRequest, sizeofFields]
  rw [RawMemory.read_memcpy_of_disjoint _ _ (.inl (by omega))]
  exact RawMemory.read_memcpy _ _ _

theorem messageView_createRequest (ht : topicName.length < 2 ^ 16)
    (hm : message.length < 2 ^ 16) :
    messageView (createRequest m buffer topicName pid message) buffer = message := by
  rw [messageView, messageAddress, topicNameLen_createRequest, messageLen_createRequest,
    UInt16.toNat_ofNat_of_lt' ht, UInt16.toNat_ofNat_of_lt' hm]
  exact RawMemory.read_memcpy _ _ _

theorem writesInside_createRequest (cell : Nat → UInt8) (hs : sizeofFields ≤ size) :
    (createRequest ⟨cell, []⟩ buffer topicName pid message).WritesInside buffer size ↔
      sizeofFields + topicName.length + message.length ≤ size := by
  simp only [sizeofFields] at hs ⊢
  simp only [createRequest, RawMemory.writesInside_memcpy, Octets.encode_length]
  constructor
  · rintro ⟨⟨_, ht⟩, hm⟩
    have ht' : buffer + 6 + topicName.length ≤ buffer + size := by
      rcases ht with rfl | ht
      · simp only [List.length_nil]
        omega
      · omega
    rcases hm with rfl | hm
    · simp only [List.length_nil]
      omega
    · omega
  · intro h
    refine ⟨⟨⟨⟨⟨RawMemory.writesInside_fresh _ _ _, ?_⟩, ?_⟩, ?_⟩, ?_⟩, ?_⟩ <;>
      exact .inr (by omega)

end

end Noctua.Rpc
