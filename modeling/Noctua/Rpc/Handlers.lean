import Noctua.Rpc.CreateRequest
import Noctua.Topic.Step

namespace Noctua.Rpc
open RequestLayout
set_option autoImplicit true

/-- `std::hash<char>`: the value as a `size_t`, a negative one sign-extended. -/
def charHash (c : UInt8) : UInt64 :=
  if c < 128 then c.toUInt64 else c.toUInt64 ||| 0xFFFFFFFFFFFFFF00

/-- `request_hash_t`: the message plays no part. -/
def requestHash (r : Request) : Nat :=
  (r.topicName.foldl (fun h c => h ^^^ charHash c) 0).toNat

theorem requestHash_congr {r r' : Request} (h : r.topicName = r'.topicName) :
    requestHash r = requestHash r' := by
  rw [requestHash, requestHash, h]

/-- A `topic_registry_t`; each call of it is one step. -/
abbrev Registry := List (Text × Topic)

namespace Registry

def partitionsCount : Nat := 1

def getTopic (reg : Registry) (topicName : Text) : Option Topic := reg.lookup topicName

/-- There is no registry afterwards when a check in the constructor of `topic_t` or of its wall
writer aborts; `opens` says whether the wall file can be opened. -/
def getOrCreateTopic (reg : Registry) (opens : Bool) (topicName : Text) : Option Registry :=
  match reg.getTopic topicName with
  | some _ => some reg
  | none =>
    if partitionsCount < invalidTopicId.toNat ∧ opens then
      some (reg ++ [(topicName, Topic.init partitionsCount)])
    else none

def update (reg : Registry) (topicName : Text) (t : Topic) : Registry :=
  reg.map fun x => if x.1 = topicName then (x.1, t) else x

def All (P : Topic → Prop) (reg : Registry) : Prop := ∀ x ∈ reg, P x.2

variable {reg reg' : Registry} {P : Topic → Prop}

theorem all_nil : All P [] := fun _ hx => nomatch hx

theorem All.getTopic (h : reg.All P) (ht : reg.getTopic name = some t) : P t := by
  obtain ⟨xs, ys, rfl, -⟩ := List.lookup_eq_some_iff.1 ht
  exact h (name, t) (List.mem_append_right _ List.mem_cons_self)

theorem All.update (h : reg.All P) (ht : P t) : (reg.update name t).All P := by
  intro x hx
  obtain ⟨y, hy, rfl⟩ := List.mem_map.1 hx
  split
  · exact ht
  · exact h y hy

theorem getOrCreateTopic_cases (h : reg.getOrCreateTopic opens name = some reg') :
    reg' = reg ∧ reg.getTopic name ≠ none ∨
      reg' = reg ++ [(name, Topic.init partitionsCount)] ∧ reg.getTopic name = none ∧
        opens = true := by
  rw [getOrCreateTopic] at h
  split at h
  · rename_i ht
    exact .inl ⟨(Option.some.inj h).symm, ht ▸ Option.some_ne_none _⟩
  · rename_i ht
    obtain ⟨⟨-, ho⟩, he⟩ := Option.ite_none_right_eq_some.1 h
    exact .inr ⟨(Option.some.inj he).symm, ht, ho⟩

theorem All.append (h : reg.All P) (ht : P t) : All P (reg ++ [(name, t)]) := by
  intro x hx
  rcases List.mem_append.1 hx with hx | hx
  · exact h x hx
  · rw [List.mem_singleton.1 hx]
    exact ht

theorem All.getOrCreateTopic (h : reg.All P) (hinit : P (Topic.init partitionsCount))
    (hr : reg.getOrCreateTopic opens name = some reg') : reg'.All P := by
  rcases getOrCreateTopic_cases hr with ⟨rfl, -⟩ | ⟨rfl, -, -⟩
  · exact h
  · exact h.append hinit

theorem getTopic_update_self (ht : reg.getTopic name = some t) (u : Topic) :
    (reg.update name u).getTopic name = some u := by
  induction reg with
  | nil => cases ht
  | cons x reg ih =>
    rw [getTopic, update, List.map_cons]
    by_cases hx : x.1 = name
    · rw [if_pos hx, hx, List.lookup_cons_self]
    · have hb : (name == x.1) = false := beq_false_of_ne (Ne.symm hx)
      rw [getTopic, List.lookup_cons, hb] at ht
      rw [if_neg hx, List.lookup_cons, hb]
      exact ih ht

theorem getTopic_update_ne (hne : other ≠ name) (u : Topic) :
    (reg.update name u).getTopic other = reg.getTopic other := by
  induction reg with
  | nil => rfl
  | cons x reg ih =>
    rw [getTopic, getTopic, update, List.map_cons, List.lookup_cons]
    by_cases hx : x.1 = name
    · have hb : (other == x.1) = false := beq_false_of_ne fun he => hne (he.trans hx)
      rw [if_pos hx, List.lookup_cons, ← hx, hb]
      exact hx ▸ ih
    · rw [if_neg hx, List.lookup_cons]
      cases other == x.1 with
      | true => rfl
      | false => exact ih

theorem getTopic_append_self (hn : reg.getTopic name = none) :
    getTopic (reg ++ [(name, t)]) name = some t := by
  rw [getTopic, List.lookup_append, ← getTopic, hn, List.lookup_cons_self, Option.none_or]

theorem getTopic_append_ne (hne : other ≠ name) :
    getTopic (reg ++ [(name, t)]) other = reg.getTopic other := by
  rw [getTopic, List.lookup_append, ← getTopic, List.lookup_cons, beq_false_of_ne hne]
  exact Option.or_none

theorem getTopic_getOrCreateTopic (hr : reg.getOrCreateTopic opens name = some reg') :
    ∃ t, reg'.getTopic name = some t := by
  rcases getOrCreateTopic_cases hr with ⟨rfl, hne⟩ | ⟨rfl, hnone, -⟩
  · exact Option.ne_none_iff_exists'.1 hne
  · exact ⟨Topic.init partitionsCount, getTopic_append_self hnone⟩

theorem getOrCreateTopic_isSome (ho : reg.getTopic name ≠ none ∨ opens = true) :
    ∃ reg', reg.getOrCreateTopic opens name = some reg' := by
  rw [getOrCreateTopic]
  cases ht : reg.getTopic name with
  | some t => exact ⟨reg, rfl⟩
  | none =>
    have hop : opens = true := ho.resolve_left (absurd ht)
    exact ⟨_, if_pos ⟨by decide, hop⟩⟩

end Registry

structure Response where
  opcode : UInt8
  errorCode : ErrorCode
  data : Text
  deriving DecidableEq, Repr

def okResponse (opcode : UInt8) : Response := ⟨opcode, .ok, []⟩

def dataResponse (opcode : UInt8) (data : Text) : Response := ⟨opcode, .ok, data⟩

def errorResponse (opcode : UInt8) (errorCode : ErrorCode) (errorMessage : String) : Response :=
  ⟨opcode, errorCode, errorMessage.toUTF8.toList⟩

inductive Dispatch where
  | respond (r : Response)
  | call (topicName : Text) (op : Operation)
  | overflow
  | abort
  deriving DecidableEq, Repr

/-- What a handler meets: whether a new wall file can be opened, the address and the old
contents of its `request_buffer`, and the padding of the `wall_data` of its call. -/
structure HandlerEnv where
  opens : Bool
  buffer : Nat
  cell : Nat → UInt8
  padding : Padding

def requestAt (m : RawMemory) (request : Nat) : Request where
  topicName := topicName m request
  partitionId := partitionId m request
  message := ⟨UInt64.ofNat (messageAddress m request), messageView m request,
    messageView_short m request⟩

/-- The handlers' `create_request` and the call made with its result. -/
def callWithRequest (env : HandlerEnv) (f : Frame) (op : Request → Padding → Operation) :
    Dispatch :=
  let m := handlerMemory env.cell env.buffer f
  if m.WritesInside env.buffer requestBufferSize then
    .call f.topicName (op (requestAt m env.buffer) env.padding)
  else .overflow

def handlePush (reg : Registry) (env : HandlerEnv) (f : Frame) : Registry × Dispatch :=
  if f.topicName = [] then
    (reg, .respond (errorResponse Opcode.push .invalidTopicName "Empty topic name"))
  else
    match reg.getOrCreateTopic env.opens f.topicName with
    | none => (reg, .abort)
    | some reg => (reg, callWithRequest env f .push)

def handlePull (reg : Registry) (f : Frame) : Dispatch :=
  if f.topicName = [] then
    .respond (errorResponse Opcode.pull .invalidTopicName "Empty topic name")
  else
    match reg.getTopic f.topicName with
    | none => .respond (errorResponse Opcode.pull .topicNotFound "Topic not found")
    | some _ =>
      if f.partitionId = invalidTopicId then
        .respond (errorResponse Opcode.pull .invalidPartitionId "Partition ID required for PULL")
      else if 3 ≤ f.partitionId then
        .respond (errorResponse Opcode.pull .partitionNotFound "Invalid partition ID")
      else .call f.topicName (.read f.partitionId)

def handleDelete (reg : Registry) (env : HandlerEnv) (f : Frame) : Dispatch :=
  if f.topicName = [] then
    .respond (errorResponse Opcode.delete .invalidTopicName "Empty topic name")
  else
    match reg.getTopic f.topicName with
    | none => .respond (errorResponse Opcode.delete .topicNotFound "Topic not found")
    | some _ =>
      if f.partitionId = invalidTopicId then
        .respond
          (errorResponse Opcode.delete .invalidPartitionId "Partition ID required for DELETE")
      else callWithRequest env f .remove

def handleRequest (reg : Registry) (env : HandlerEnv) (f : Frame) : Registry × Dispatch :=
  if f.opcode = Opcode.push then handlePush reg env f
  else if f.opcode = Opcode.pull then (reg, handlePull reg f)
  else if f.opcode = Opcode.delete then (reg, handleDelete reg env f)
  else (reg, .respond (errorResponse f.opcode .internalError "Unknown opcode"))

/-- The response that follows the answer of the topic; the `bool` of `remove` is dropped. -/
def replyTo (opcode : UInt8) : Answer → Response
  | .message none => errorResponse opcode .emptyPartition "No messages in partition"
  | .message (some m) => dataResponse opcode m.text
  | .pushed | .removed _ => okResponse opcode

/-- A handler extends the registry for a PUSH to a new topic whose wall file can be opened. -/
theorem handleRequest_registry (reg : Registry) (env : HandlerEnv) (f : Frame) :
    (handleRequest reg env f).1 = reg ∨ reg.getTopic f.topicName = none ∧ env.opens = true ∧
      (handleRequest reg env f).1 =
        reg ++ [(f.topicName, Topic.init Registry.partitionsCount)] := by
  rw [handleRequest]
  split
  · rw [handlePush]
    split
    · exact .inl rfl
    · split
      · exact .inl rfl
      · rename_i hr
        rcases Registry.getOrCreateTopic_cases hr with ⟨rfl, -⟩ | ⟨rfl, hn, ho⟩
        · exact .inl rfl
        · exact .inr ⟨hn, ho, rfl⟩
  · split
    · exact .inl rfl
    · split <;> exact .inl rfl

theorem Registry.All.handleRequest {reg : Registry} {P : Topic → Prop} (h : reg.All P)
    (hinit : P (Topic.init Registry.partitionsCount)) (env : HandlerEnv) (f : Frame) :
    (handleRequest reg env f).1.All P := by
  rcases handleRequest_registry reg env f with he | ⟨-, -, he⟩
  · rw [he]
    exact h
  · rw [he]
    exact h.append hinit

theorem requestAt_handlerMemory (env : HandlerEnv) (f : Frame) :
    (requestAt (handlerMemory env.cell env.buffer f) env.buffer).partitionId = f.partitionId :=
  partitionId_createRequest _ _ _ _ _

theorem callWithRequest_cases (env : HandlerEnv) (f : Frame)
    (op : Request → Padding → Operation) :
    callWithRequest env f op = .overflow ∨ ∃ r, r.partitionId = f.partitionId ∧
      callWithRequest env f op = .call f.topicName (op r env.padding) := by
  simp only [callWithRequest]
  split
  · exact .inr ⟨_, requestAt_handlerMemory env f, rfl⟩
  · exact .inl rfl

end Noctua.Rpc
