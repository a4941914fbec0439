import Noctua.Library.Segments
import Noctua.Rpc.Client
import Noctua.Rpc.Handlers

namespace Noctua.Rpc
set_option autoImplicit true

namespace SentRequest

def Fits (r : SentRequest) : Prop :=
  r.topicName.length + r.message.length ≤ receiveBufferSize - sizeofRequestHeader

instance (r : SentRequest) : Decidable r.Fits := inferInstanceAs (Decidable (_ ≤ _))

def frame (r : SentRequest) (h : r.Fits) : Frame :=
  ⟨r.opcode, r.partitionId, r.topicName, r.message, h⟩

end SentRequest

section
variable {r : SentRequest} {body rest input : List UInt8}

theorem SentRequest.Fits.take (h : r.Fits) (body : List UInt8) :
    (body.take r.topicName.length).length +
      ((body.drop r.topicName.length).take r.message.length).length ≤
        receiveBufferSize - sizeofRequestHeader :=
  (Nat.add_le_add (List.length_take_le _ _) (List.length_take_le _ _)).trans h

theorem receive_header (r : SentRequest) (body : List UInt8) :
    receive (r.header.bytes r.padding ++ body) =
      if hf : r.Fits then
        if body.length < r.topicName.length + r.message.length then .closed
        else
          .request ⟨r.opcode, r.partitionId, body.take r.topicName.length,
            (body.drop r.topicName.length).take r.message.length, hf.take body⟩
            (body.drop (r.topicName.length + r.message.length))
      else .tooLarge r.opcode := by
  have hh : RequestHeader.ofBytes
      ((r.header.bytes r.padding ++ body).take sizeofRequestHeader) = r.header := by
    rw [List.take_left' (r.header.bytes_length r.padding)]
    exact r.header.ofBytes_bytes (show rpcMagic < 2 ^ 32 by decide) r.padding
  have hd : (r.header.bytes r.padding ++ body).drop sizeofRequestHeader = body :=
    List.drop_left' (r.header.bytes_length r.padding)
  have ht : r.header.topicNameLen.toNat = r.topicName.length :=
    UInt16.toNat_ofNat_of_lt' r.topicShort
  have hl : r.header.messageLen.toNat = r.message.length :=
    UInt16.toNat_ofNat_of_lt' r.messageShort
  have hlong : ¬ (r.header.bytes r.padding ++ body).length < sizeofRequestHeader := by
    rw [List.length_append, r.header.bytes_length]
    exact Nat.not_lt.2 (Nat.le_add_right _ _)
  simp only [receive, hh, hd, ht, hl]
  have hmagic : ¬ r.header.magic ≠ rpcMagic := not_not_intro rfl
  rw [if_neg hlong, if_neg hmagic]
  by_cases hf : r.Fits
  · rw [dif_neg (Nat.not_lt.2 hf), dif_pos hf]
    rfl
  · rw [dif_pos (Nat.not_le.1 hf), dif_neg hf]
    rfl

theorem receive_fits (hf : r.Fits) (rest : List UInt8) :
    receive (r.bytes ++ rest) = .request (r.frame hf) rest := by
  have hlen : ¬ (r.topicName ++ r.message ++ rest).length <
      r.topicName.length + r.message.length := by
    rw [List.length_append, List.length_append]
    exact Nat.not_lt.2 (Nat.le_add_right _ _)
  rw [r.bytes_eq, List.append_assoc, receive_header, dif_pos hf, if_neg hlen]
  simp only [SentRequest.frame, ← List.length_append, List.drop_left]
  simp only [List.append_assoc, List.take_left, List.drop_left]

theorem receive_tooLarge (hf : ¬ r.Fits) (rest : List UInt8) :
    receive (r.bytes ++ rest) = .tooLarge r.opcode := by
  rw [r.bytes_eq, List.append_assoc, receive_header, dif_neg hf]

/-- A frame that is cut off anywhere closes the session. -/
theorem receive_truncated (hf : r.Fits) (hp : input <+: r.bytes) (hne : input ≠ r.bytes) :
    receive input = .closed := by
  rw [r.bytes_eq] at hp hne
  by_cases hlen : input.length < sizeofRequestHeader
  · exact if_pos hlen
  · have hh : r.header.bytes r.padding <+: input := by
      apply List.prefix_of_prefix_length_le (List.prefix_append _ _) hp
      rw [r.header.bytes_length]
      exact Nat.not_lt.1 hlen
    obtain ⟨body, rfl⟩ := hh
    have hb := (List.prefix_append_right_inj _).1 hp
    have hlt : body.length < r.topicName.length + r.message.length := by
      rw [← List.length_append]
      apply Nat.lt_of_le_of_ne hb.length_le
      intro he
      exact hne (congrArg (_ ++ ·) (hb.eq_of_length he))
    rw [receive_header, dif_pos hf, if_pos hlt]

theorem receive_rest (h : receive input = .request f rest) : rest.length < input.length := by
  simp only [receive] at h
  split at h
  · cases h
  · split at h
    · cases h
    · split at h
      · cases h
      · split at h
        · cases h
        · rename_i hlen _ _ _
          cases h
          rw [List.length_drop, List.length_drop]
          simp only [sizeofRequestHeader] at hlen ⊢
          omega

end

/-- The requests that the loop passes to `handle_request`, in order, and the response that the
loop itself sends before it ends, if any. -/
def handleRequests (input : List UInt8) : List Frame × Option Response :=
  match _h : receive input with
  | .closed => ([], none)
  | .badMagic =>
    ([], some (errorResponse Opcode.push .internalError "Invalid magic number"))
  | .tooLarge opcode => ([], some (errorResponse opcode .internalError "Data too large"))
  | .request f rest => (f :: (handleRequests rest).1, (handleRequests rest).2)
termination_by input.length
decreasing_by all_goals exact receive_rest _h

theorem handleRequests_eq (input : List UInt8) : handleRequests input =
    match receive input with
    | .closed => ([], none)
    | .badMagic =>
      ([], some (errorResponse Opcode.push .internalError "Invalid magic number"))
    | .tooLarge opcode => ([], some (errorResponse opcode .internalError "Data too large"))
    | .request f rest => (f :: (handleRequests rest).1, (handleRequests rest).2) := by
  rw [handleRequests]
  split <;> rename_i h <;> rw [h]

inductive Reception where
  | closed
  | badMagic
  | tooLarge (opcode : UInt8)
  | request (f : Frame) (rest : List (List UInt8))

def Reception.flat : Reception → Received
  | .closed => .closed
  | .badMagic => .badMagic
  | .tooLarge opcode => .tooLarge opcode
  | .request f rest => .request f rest.flatten

/-- One turn of the loop with its calls of `async_read`, each of which delivers the bytes that
it asks for or fails. -/
def receiveFrom (segs : List (List UInt8)) : Reception :=
  match Segments.read sizeofRequestHeader segs with
  | none => .closed
  | some (bytes, segs) =>
    let header := RequestHeader.ofBytes bytes
    let totalDataLen := header.topicNameLen.toNat + header.messageLen.toNat
    if header.magic ≠ rpcMagic then .badMagic
    else if h : totalDataLen > receiveBufferSize - sizeofRequestHeader then
      .tooLarge header.opcode
    else
      match Segments.read totalDataLen segs with
      | none => .closed
      | some (buffer, segs) =>
        .request
          { opcode := header.opcode
            partitionId := header.partitionId
            topicName := buffer.take header.topicNameLen.toNat
            message := (buffer.drop header.topicNameLen.toNat).take header.messageLen.toNat
            fits := (Nat.add_le_add (List.length_take_le _ _) (List.length_take_le _ _)).trans
              (Nat.not_lt.1 h) }
          segs

theorem payload_append {n k : Nat} {buffer : List UInt8} (rest : List UInt8)
    (h : buffer.length = n + k) : (buffer ++ rest).take n = buffer.take n ∧
      ((buffer ++ rest).drop n).take k = (buffer.drop n).take k := by
  constructor
  · exact List.take_append_of_le_length (by omega)
  · rw [List.drop_append_of_le_length (by omega),
      List.take_append_of_le_length (by rw [List.length_drop]; omega)]

theorem receiveFrom_flat (segs : List (List UInt8)) :
    (receiveFrom segs).flat = receive segs.flatten := by
  cases hh : Segments.read sizeofRequestHeader segs with
  | none =>
    rw [receiveFrom, hh, receive, if_pos (Segments.read_none hh)]
    rfl
  | some x =>
    obtain ⟨bytes, segs'⟩ := x
    obtain ⟨hf, hl⟩ := Segments.read_some hh
    have hlong : ¬ segs.flatten.length < sizeofRequestHeader := by
      rw [hf, List.length_append, hl]
      exact Nat.not_lt.2 (Nat.le_add_right _ _)
    have ht : segs.flatten.take sizeofRequestHeader = bytes := hf ▸ List.take_left' hl
    have hd : segs.flatten.drop sizeofRequestHeader = segs'.flatten := hf ▸ List.drop_left' hl
    simp only [receiveFrom, hh, receive, ht, hd]
    rw [if_neg hlong]
    split
    · rfl
    · split
      · rfl
      · cases hb : Segments.read ((RequestHeader.ofBytes bytes).topicNameLen.toNat +
            (RequestHeader.ofBytes bytes).messageLen.toNat) segs' with
        | none =>
          rw [if_pos (Segments.read_none hb)]
          rfl
        | some y =>
          obtain ⟨buffer, segs''⟩ := y
          obtain ⟨hf', hl'⟩ := Segments.read_some hb
          have hshort : ¬ segs'.flatten.length < (RequestHeader.ofBytes bytes).topicNameLen.toNat +
              (RequestHeader.ofBytes bytes).messageLen.toNat := by
            rw [hf', List.length_append, hl']
            exact Nat.not_lt.2 (Nat.le_add_right _ _)
          rw [if_neg hshort]
          obtain ⟨htopic, hmessage⟩ := payload_append segs''.flatten hl'
          simp only [Reception.flat, hf', htopic, hmessage, List.drop_left' hl']

theorem receiveFrom_rest (h : receiveFrom segs = .request f rest) :
    rest.flatten.length < segs.flatten.length := by
  apply receive_rest (f := f)
  rw [← receiveFrom_flat, h]
  rfl

def handleRequestsFrom (segs : List (List UInt8)) : List Frame × Option Response :=
  match _h : receiveFrom segs with
  | .closed => ([], none)
  | .badMagic =>
    ([], some (errorResponse Opcode.push .internalError "Invalid magic number"))
  | .tooLarge opcode => ([], some (errorResponse opcode .internalError "Data too large"))
  | .request f rest => (f :: (handleRequestsFrom rest).1, (handleRequestsFrom rest).2)
termination_by segs.flatten.length
decreasing_by all_goals exact receiveFrom_rest _h

theorem handleRequestsFrom_eq (segs : List (List UInt8)) : handleRequestsFrom segs =
    match receiveFrom segs with
    | .closed => ([], none)
    | .badMagic =>
      ([], some (errorResponse Opcode.push .internalError "Invalid magic number"))
    | .tooLarge opcode => ([], some (errorResponse opcode .internalError "Data too large"))
    | .request f rest => (f :: (handleRequestsFrom rest).1, (handleRequestsFrom rest).2) := by
  rw [handleRequestsFrom]
  split <;> rename_i h <;> rw [h]

/-- The loop does the same however the transport splits the bytes. -/
theorem handleRequestsFrom_flatten (segs : List (List UInt8)) :
    handleRequestsFrom segs = handleRequests segs.flatten := by
  have hr := receiveFrom_flat segs
  induction segs using handleRequestsFrom.induct with
  | case1 segs h | case2 segs h | case3 segs opcode h =>
    rw [h] at hr
    rw [handleRequestsFrom_eq, handleRequests_eq, h, ← hr]
    rfl
  | case4 segs f rest h ih =>
    rw [h] at hr
    rw [handleRequestsFrom_eq, handleRequests_eq, h, ← hr]
    simp only [Reception.flat, ih (receiveFrom_flat rest)]

/-- The call of `handle_request` carries what the client asked for. -/
structure Carries (f : Frame) (r : SentRequest) : Prop where
  opcode : f.opcode = r.opcode
  partitionId : f.partitionId = r.partitionId
  topicName : f.topicName = r.topicName
  message : f.message = r.message

/-- Of the requests that clients send, followed by a part of one more frame, the loop handles
those before the first oversized one, which it answers with an error; it does so however the
transport splits the bytes. -/
theorem framing_round_trip (requests : List SentRequest) (last : SentRequest)
    (hlast : last.Fits) (tail : List UInt8) (htail : tail <+: last.bytes)
    (hcut : tail ≠ last.bytes) (segs : List (List UInt8))
    (hsegs : segs.flatten = requests.flatMap SentRequest.bytes ++ tail) :
    List.Forall₂ Carries (handleRequestsFrom segs).1
        (requests.takeWhile fun r => r.Fits) ∧
      (handleRequestsFrom segs).2 = (requests.dropWhile fun r => r.Fits).head?.map fun r =>
        errorResponse r.opcode .internalError "Data too large" := by
  rw [handleRequestsFrom_flatten, hsegs]
  clear hsegs
  induction requests with
  | nil =>
    rw [List.flatMap_nil, List.nil_append, handleRequests_eq,
      receive_truncated hlast htail hcut]
    exact ⟨.nil, rfl⟩
  | cons r requests ih =>
    rw [List.flatMap_cons, List.append_assoc]
    by_cases hf : r.Fits
    · rw [handleRequests_eq, receive_fits hf,
        List.takeWhile_cons_of_pos (by simpa using hf),
        List.dropWhile_cons_of_pos (by simpa using hf)]
      exact ⟨.cons ⟨rfl, rfl, rfl, rfl⟩ ih.1, ih.2⟩
    · rw [handleRequests_eq, receive_tooLarge hf,
        List.takeWhile_cons_of_neg (by simp [hf]), List.dropWhile_cons_of_neg (by simp [hf])]
      exact ⟨.nil, rfl⟩

def sentPush : SentRequest := (ClientCall.sendPush [97] 0 [98]).request 7 (by decide) (by decide)

def sentPull : SentRequest := (ClientCall.sendPull [97] 0).request 0 (by decide) (by decide)

/-- A PUSH and the header of a PULL without its last byte, byte by byte. -/
theorem framing_round_trip_bytewise :
    let segs := (sentPush.bytes ++ sentPull.bytes.take 11).map fun b => [b]
    List.Forall₂ Carries (handleRequestsFrom segs).1 [sentPush] ∧
      (handleRequestsFrom segs).2 = none :=
  framing_round_trip [sentPush] sentPull (by decide) (sentPull.bytes.take 11)
    (List.take_prefix _ _) (by decide +kernel) _ (by decide +kernel)

end Noctua.Rpc
