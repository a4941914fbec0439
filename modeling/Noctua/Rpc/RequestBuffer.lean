import Noctua.Rpc.Handlers

namespace Noctua.Rpc
open RequestLayout
set_option autoImplicit true

/-- Every write of `create_request` stays in `request_buffer`, and the accessors return what was
passed in. -/
structure Rebuilt (env : HandlerEnv) (f : Frame) : Prop where
  inside : (handlerMemory env.cell env.buffer f).WritesInside env.buffer requestBufferSize
  partitionId : partitionId (handlerMemory env.cell env.buffer f) env.buffer = f.partitionId
  topicName : topicName (handlerMemory env.cell env.buffer f) env.buffer = f.topicName
  message : messageView (handlerMemory env.cell env.buffer f) env.buffer = f.message

/-- The handler of the request comes to its `create_request`. -/
def CallsCreateRequest (reg : Registry) (env : HandlerEnv) (f : Frame) : Prop :=
  (handleRequest reg env f).2 = callWithRequest env f .push ∨
    (handleRequest reg env f).2 = callWithRequest env f .remove

def RebuildsInside (reg : Registry) (env : HandlerEnv) (f : Frame) : Prop :=
  CallsCreateRequest reg env f → Rebuilt env f

/-- A PUSH whose topic is there or can be made, or a DELETE that the checks of its handler let
through. -/
def PassesChecks (reg : Registry) (env : HandlerEnv) (f : Frame) : Prop :=
  f.topicName ≠ [] ∧
    (f.opcode = Opcode.push ∧ (reg.getTopic f.topicName ≠ none ∨ env.opens = true) ∨
      f.opcode = Opcode.delete ∧ reg.getTopic f.topicName ≠ none ∧
        f.partitionId ≠ invalidTopicId)

section
variable {reg : Registry} {env : HandlerEnv} {f : Frame} {op : Request → Padding → Operation}

theorem callWithRequest_ne_respond (r : Response) : .respond r ≠ callWithRequest env f op := by
  rcases callWithRequest_cases env f op with h | ⟨_, -, h⟩ <;> rw [h] <;>
    exact Dispatch.noConfusion

theorem callWithRequest_ne_abort : .abort ≠ callWithRequest env f op := by
  rcases callWithRequest_cases env f op with h | ⟨_, -, h⟩ <;> rw [h] <;>
    exact Dispatch.noConfusion

theorem callWithRequest_ne_read (hop : ∀ r padding, op r padding ≠ .read p) :
    .call name (.read p) ≠ callWithRequest env f op := by
  rcases callWithRequest_cases env f op with h | ⟨r, -, h⟩ <;> rw [h]
  · exact Dispatch.noConfusion
  · intro he
    exact hop r env.padding (Dispatch.call.inj he).2.symm

theorem not_calls_of_respond (h : ∃ r, (handleRequest reg env f).2 = .respond r) :
    ¬ CallsCreateRequest reg env f := by
  obtain ⟨r, hr⟩ := h
  rw [CallsCreateRequest, hr]
  exact not_or.2 ⟨callWithRequest_ne_respond r, callWithRequest_ne_respond r⟩

theorem handlePush_calls_iff (hop : f.opcode = Opcode.push) : CallsCreateRequest reg env f ↔
    f.topicName ≠ [] ∧ (reg.getTopic f.topicName ≠ none ∨ env.opens = true) := by
  have hr : handleRequest reg env f = handlePush reg env f := if_pos hop
  by_cases hname : f.topicName = []
  · refine iff_of_false (not_calls_of_respond ?_) fun h => h.1 hname
    exact ⟨_, by rw [hr, handlePush, if_pos hname]⟩
  · rw [CallsCreateRequest, hr, handlePush, if_neg hname]
    cases hreg : reg.getOrCreateTopic env.opens f.topicName with
    | none =>
      refine iff_of_false ?_ fun h => ?_
      · exact not_or.2 ⟨callWithRequest_ne_abort, callWithRequest_ne_abort⟩
      · obtain ⟨reg', hs⟩ := Registry.getOrCreateTopic_isSome h.2
        cases hreg.symm.trans hs
    | some reg' =>
      refine iff_of_true (.inl rfl) ⟨hname, ?_⟩
      rcases Registry.getOrCreateTopic_cases hreg with ⟨-, h⟩ | ⟨-, -, h⟩
      · exact .inl h
      · exact .inr h

theorem handlePull_calls_not : ¬ (handlePull reg f = callWithRequest env f .push ∨
    handlePull reg f = callWithRequest env f .remove) := by
  have hpush (p) (r padding) : Operation.push r padding ≠ .read p := Operation.noConfusion
  have hremove (p) (r padding) : Operation.remove r padding ≠ .read p := Operation.noConfusion
  rw [handlePull]
  split
  · exact not_or.2 ⟨callWithRequest_ne_respond _, callWithRequest_ne_respond _⟩
  · split
    · exact not_or.2 ⟨callWithRequest_ne_respond _, callWithRequest_ne_respond _⟩
    · split
      · exact not_or.2 ⟨callWithRequest_ne_respond _, callWithRequest_ne_respond _⟩
      · split
        · exact not_or.2 ⟨callWithRequest_ne_respond _, callWithRequest_ne_respond _⟩
        · exact not_or.2 ⟨callWithRequest_ne_read (hpush _), callWithRequest_ne_read (hremove _)⟩

theorem handleDelete_calls_iff (hpush : f.opcode ≠ Opcode.push) (hpull : f.opcode ≠ Opcode.pull)
    (hop : f.opcode = Opcode.delete) : CallsCreateRequest reg env f ↔ f.topicName ≠ [] ∧
      reg.getTopic f.topicName ≠ none ∧ f.partitionId ≠ invalidTopicId := by
  have hr : (handleRequest reg env f).2 = handleDelete reg env f := by
    rw [handleRequest, if_neg hpush, if_neg hpull, if_pos hop]
  by_cases hname : f.topicName = []
  · refine iff_of_false (not_calls_of_respond ?_) fun h => h.1 hname
    exact ⟨_, by rw [hr, handleDelete, if_pos hname]⟩
  · cases ht : reg.getTopic f.topicName with
    | none =>
      refine iff_of_false (not_calls_of_respond ?_) fun h => h.2.1 rfl
      exact ⟨_, by rw [hr, handleDelete, if_neg hname, ht]⟩
    | some t =>
      by_cases hid : f.partitionId = invalidTopicId
      · refine iff_of_false (not_calls_of_respond ?_) fun h => h.2.2 hid
        rw [hr, handleDelete, if_neg hname, ht]
        exact ⟨_, if_pos hid⟩
      · refine iff_of_true (.inr ?_) ⟨hname, Option.some_ne_none t, hid⟩
        rw [hr, handleDelete, if_neg hname, ht]
        exact if_neg hid

theorem callsCreateRequest_iff : CallsCreateRequest reg env f ↔ PassesChecks reg env f := by
  by_cases hpush : f.opcode = Opcode.push
  · have hdelete : f.opcode ≠ Opcode.delete := by
      rw [hpush]
      decide
    rw [handlePush_calls_iff hpush, PassesChecks]
    simp only [eq_true hpush, eq_false hdelete, false_and, true_and, or_false]
  · by_cases hpull : f.opcode = Opcode.pull
    · have hdelete : f.opcode ≠ Opcode.delete := by
        rw [hpull]
        decide
      have hr : (handleRequest reg env f).2 = handlePull reg f := by
        rw [handleRequest, if_neg hpush, if_pos hpull]
      refine iff_of_false ?_ fun h => h.2.elim (fun h => hpush h.1) fun h => hdelete h.1
      rw [CallsCreateRequest, hr]
      exact handlePull_calls_not
    · by_cases hdelete : f.opcode = Opcode.delete
      · rw [handleDelete_calls_iff hpush hpull hdelete, PassesChecks]
        simp only [eq_false hpush, eq_true hdelete, false_and, true_and, false_or]
      · refine iff_of_false (not_calls_of_respond ?_)
          fun h => h.2.elim (fun h => hpush h.1) fun h => hdelete h.1
        exact ⟨_, by rw [handleRequest, if_neg hpush, if_neg hpull, if_neg hdelete]⟩

theorem rebuilt_iff :
    Rebuilt env f ↔ sizeofFields + f.topicName.length + f.message.length ≤ requestBufferSize := by
  have hw := writesInside_createRequest env.buffer f.topicName f.partitionId f.message env.cell
    (show sizeofFields ≤ requestBufferSize by decide)
  constructor
  · intro h
    exact hw.1 h.inside
  · intro h
    exact ⟨hw.2 h, partitionId_createRequest _ _ _ _ _,
      topicName_createRequest _ _ _ _ _ f.topicName_short,
      messageView_createRequest _ _ _ _ _ f.topicName_short f.message_short⟩

end

/-- The handlers rebuild every request that comes to `create_request` exactly when its fields,
topic and message fit in 1024 bytes together. -/
theorem rebuilds_inside_iff (reg : Registry) (env : HandlerEnv) (f : Frame) :
    RebuildsInside reg env f ↔ (PassesChecks reg env f →
      sizeofFields + f.topicName.length + f.message.length ≤ requestBufferSize) := by
  rw [RebuildsInside, callsCreateRequest_iff, rebuilt_iff]

def oversizedFrame : Frame where
  opcode := Opcode.push
  partitionId := 0
  topicName := [97]
  message := List.replicate 1018 98
  fits := by
    rw [List.length_replicate]
    decide

/-- A PUSH of 1018 bytes to the topic "a", which is not there yet. -/
theorem rebuilds_inside_fails : ¬ ∀ reg env f, RebuildsInside reg env f := by
  intro h
  have hle := (rebuilds_inside_iff [] ⟨true, 0, fun _ => 0, .replicate 5 0⟩ oversizedFrame).1
    (h _ _ _) ⟨List.cons_ne_nil _ _, .inl ⟨rfl, .inr rfl⟩⟩
  have hlen : oversizedFrame.message.length = 1018 := List.length_replicate
  rw [hlen] at hle
  exact absurd hle (by decide)

end Noctua.Rpc
