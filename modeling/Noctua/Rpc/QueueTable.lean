import Noctua.Rpc.ClientHistory
import Noctua.Rpc.PartitionRange
import Mathlib.Logic.Function.Basic

namespace Noctua.Rpc
open Transition
set_option autoImplicit true

/-- For each topic that there is, its messages in order. -/
abbrev QueueTable := Text → Option (List Text)

namespace QueueTable

def empty : QueueTable := fun _ => none

/-- The response to a request that the table refuses. -/
def refusal (q : QueueTable) (f : Frame) : Option Response :=
  if f.opcode ≠ Opcode.push ∧ f.opcode ≠ Opcode.pull ∧ f.opcode ≠ Opcode.delete then
    some (errorResponse f.opcode .internalError "Unknown opcode")
  else if f.topicName = [] then
    some (errorResponse f.opcode .invalidTopicName "Empty topic name")
  else if f.opcode = Opcode.push then none
  else if q f.topicName = none then
    some (errorResponse f.opcode .topicNotFound "Topic not found")
  else if f.partitionId = invalidTopicId then
    some (errorResponse f.opcode .invalidPartitionId
      (if f.opcode = Opcode.pull then "Partition ID required for PULL"
        else "Partition ID required for DELETE"))
  else if f.opcode = Opcode.pull ∧ 3 ≤ f.partitionId then
    some (errorResponse f.opcode .partitionNotFound "Invalid partition ID")
  else none

/-- Refuse a request, or do what it asks of the queue of its topic. -/
def handle (q : QueueTable) (f : Frame) : QueueTable × Response :=
  match q.refusal f with
  | some r => (q, r)
  | none =>
    let (texts, result) := Fifo.apply ((q f.topicName).getD []) f.operation
    (Function.update q f.topicName (some texts), queueResponse f.operation result)

def answer (q : QueueTable) : List Frame → Option Response → QueueTable × List Response
  | [], rejection => (q, rejection.toList)
  | f :: fs, rejection =>
    let (q', r) := q.handle f
    let (q'', rs) := answer q' fs rejection
    (q'', r :: rs)

def serve (q : QueueTable) : List (List UInt8) → QueueTable × List (List Response)
  | [] => (q, [])
  | input :: inputs =>
    let (frames, rejection) := handleRequests input
    let (q', rs) := q.answer frames rejection
    let (q'', rss) := serve q' inputs
    (q'', rs :: rss)

end QueueTable

namespace Registry
variable {reg reg' : Registry} {env : HandlerEnv} {f : Frame} {x : Handling} {name : Text}

def table (reg : Registry) : QueueTable := fun name => (reg.getTopic name).map fun t => t.texts 0

structure AtRest (reg : Registry) : Prop where
  idle : reg.Idle
  onePartition : reg.All Broker.OnePartition

theorem atRest_nil : AtRest [] := ⟨idle_nil, all_nil⟩

theorem table_eq_none : reg.table name = none ↔ reg.getTopic name = none := Option.map_eq_none_iff

theorem handlePush_refusal (h : handlePush reg env f = (reg', d)) (hop : f.opcode = Opcode.push) :
    match reg.table.refusal f with
    | some r => d = .respond r
    | none => ∀ r, d ≠ .respond r := by
  rw [QueueTable.refusal, if_neg (fun hn => hn.1 hop)]
  rw [handlePush] at h
  split at h
  · rename_i hname
    cases h
    rw [if_pos hname, hop]
  · rename_i hname
    rw [if_neg hname, if_pos hop]
    intro r
    split at h
    · cases h
      exact Dispatch.noConfusion
    · obtain ⟨-, rfl⟩ := Prod.mk.inj h
      rcases callWithRequest_cases env f .push with he | ⟨_, -, he⟩ <;> rw [he] <;>
        exact Dispatch.noConfusion

theorem handlePull_refusal (hop : f.opcode = Opcode.pull) :
    match reg.table.refusal f with
    | some r => handlePull reg f = .respond r
    | none => ∀ r, handlePull reg f ≠ .respond r := by
  have hne : f.opcode ≠ Opcode.push := by
    rw [hop]
    decide
  rw [QueueTable.refusal, if_neg (fun hn => hn.2.1 hop), if_neg hne, handlePull]
  by_cases hname : f.topicName = []
  · rw [if_pos hname, if_pos hname, hop]
  · rw [if_neg hname, if_neg hname]
    cases ht : reg.getTopic f.topicName with
    | none => rw [if_pos (table_eq_none.2 ht), hop]
    | some t =>
      rw [if_neg (by rw [table_eq_none, ht]; exact Option.some_ne_none t)]
      by_cases hid : f.partitionId = invalidTopicId
      · simp only [if_pos hid, hop, if_true]
      · rw [if_neg hid]
        by_cases hrange : 3 ≤ f.partitionId
        · simp only [if_neg hid, if_pos hrange, hop, true_and]
        · simp only [if_neg hid, if_neg hrange]
          rw [if_neg (fun hn => hrange hn.2)]
          exact fun r => Dispatch.noConfusion

theorem handleDelete_refusal (hop : f.opcode = Opcode.delete) :
    match reg.table.refusal f with
    | some r => handleDelete reg env f = .respond r
    | none => ∀ r, handleDelete reg env f ≠ .respond r := by
  have hpush : f.opcode ≠ Opcode.push := by
    rw [hop]
    decide
  have hpull : f.opcode ≠ Opcode.pull := by
    rw [hop]
    decide
  rw [QueueTable.refusal, if_neg (fun hn => hn.2.2 hop), if_neg hpush, handleDelete]
  by_cases hname : f.topicName = []
  · rw [if_pos hname, if_pos hname, hop]
  · rw [if_neg hname, if_neg hname]
    cases ht : reg.getTopic f.topicName with
    | none => rw [if_pos (table_eq_none.2 ht), hop]
    | some t =>
      rw [if_neg (by rw [table_eq_none, ht]; exact Option.some_ne_none t)]
      by_cases hid : f.partitionId = invalidTopicId
      · have hne : Opcode.delete ≠ Opcode.pull := by decide
        simp only [if_pos hid, hop, if_neg hne]
      · rw [if_neg hid, if_neg (fun hn => hpull hn.1)]
        simp only [if_neg hid]
        intro r
        rcases callWithRequest_cases env f .remove with he | ⟨_, -, he⟩ <;> rw [he] <;>
          exact Dispatch.noConfusion

/-- A handler answers without calling a topic exactly what the table refuses. -/
theorem handleRequest_refusal (h : handleRequest reg env f = (reg', d)) :
    match reg.table.refusal f with
    | some r => d = .respond r
    | none => ∀ r, d ≠ .respond r := by
  rw [handleRequest] at h
  split at h
  · exact handlePush_refusal h ‹_›
  · rename_i hpush
    split at h
    · obtain ⟨-, rfl⟩ := Prod.mk.inj h
      exact handlePull_refusal ‹_›
    · rename_i hpull
      split at h
      · obtain ⟨-, rfl⟩ := Prod.mk.inj h
        exact handleDelete_refusal ‹_›
      · rename_i hdelete
        cases h
        rw [QueueTable.refusal, if_pos ⟨hpush, hpull, hdelete⟩]

theorem table_append_self (hn : reg.getTopic name = none) :
    table (reg ++ [(name, Topic.init partitionsCount)]) =
      Function.update reg.table name (some []) := by
  funext n
  by_cases hne : n = name
  · subst hne
    rw [Function.update_self, table, getTopic_append_self hn]
    rfl
  · rw [Function.update_of_ne hne, table, table, getTopic_append_ne hne]

theorem table_update (ht : reg.getTopic name = some t) (u : Topic) :
    (reg.update name u).table = Function.update reg.table name (some (u.texts 0)) := by
  funext n
  by_cases hne : n = name
  · subst hne
    rw [Function.update_self, table, getTopic_update_self ht]
    rfl
  · rw [Function.update_of_ne hne, table, table, getTopic_update_ne hne]

theorem table_of_call {t : Topic} (hd : handleRequest reg env f = (reg', .call name op))
    (ht : reg'.getTopic name = some t) : (reg.table name).getD [] = t.texts 0 ∧
      ∀ texts, Function.update reg'.table name texts = Function.update reg.table name texts := by
  obtain ⟨-, ⟨rfl, -⟩ | ⟨hnone, -, -, rfl⟩⟩ := handleRequest_call hd
  · refine ⟨?_, fun _ => rfl⟩
    rw [table, ht]
    rfl
  · rw [getTopic_append_self hnone] at ht
    cases ht
    refine ⟨?_, fun texts => ?_⟩
    · rw [table, hnone]
      rfl
    · rw [table_append_self hnone, Function.update_idem]

theorem AtRest.handleRequest (h : reg.AtRest) (env : HandlerEnv) (f : Frame) :
    AtRest (handleRequest reg env f).1 where
  idle := All.handleRequest h.idle
    ⟨Topic.coherent_init _, fun _ hc => nomatch hc⟩ env f
  onePartition := All.handleRequest h.onePartition Broker.onePartition_init env f

theorem AtRest.update (h : reg.AtRest) (hu : u.Coherent ∧ u.Quiet) (hlen : u.storage.length = 1) :
    (reg.update name u).AtRest where
  idle := All.update h.idle hu
  onePartition := All.update h.onePartition ⟨hlen, hu.1⟩

/-- What a request that calls its topic makes of the table and what it is answered with. -/
theorem completed_table {t u : Topic} {op : Operation} (h : t.Completed op p u a)
    (hlen : t.storage.length = 1) :
    u.storage.length = 1 ∧ Fifo.apply (t.texts 0) op.fifo = (u.texts 0, a.fifo) := by
  obtain ⟨q, hq, hset⟩ := h.contents
  have hp : p.toNat = 0 := Nat.lt_one_iff.1 (hlen ▸ h.inRange)
  rw [hp] at hq hset
  have hu : u.storage.length = 1 := by
    have hl := congrArg List.length hset
    rw [Topic.contents, Topic.contents, List.length_set, List.length_map, List.length_map] at hl
    exact hl.trans hlen
  have htexts (t : Topic) : t.contents.getD 0 [] = t.texts 0 := t.contents_getD 0
  have hq' : u.texts 0 = q := by
    rw [← htexts, hset, List.getD_eq_getElem?_getD, List.getElem?_set_self]
    · rfl
    · rw [Topic.contents, List.length_map, hlen]
      exact Nat.one_pos
  rw [hq', ← htexts t]
  exact ⟨hu, hq⟩

/-- One request, awaited to its end, is one step of the table. -/
theorem Served.table (h : Served reg x reg' r) (hrest : reg.AtRest) :
    reg.table.handle x.frame = (reg'.table, r) ∧ reg'.AtRest := by
  cases h with
  | respond hd =>
    have hr := handleRequest_refusal hd
    rw [QueueTable.handle]
    cases hq : reg.table.refusal x.frame with
    | none =>
      rw [hq] at hr
      exact (hr _ rfl).elim
    | some r' =>
      rw [hq] at hr
      cases hr
      exact ⟨rfl, hrest⟩
  | @call reg₁ op t u a hd ht hother hsame hu =>
    have hrest₁ : reg₁.AtRest := by
      have hr := hrest.handleRequest x.env x.frame
      rwa [hd] at hr
    have hlen := (hrest₁.onePartition.getTopic ht).1
    obtain ⟨hlen', happly⟩ := completed_table hu hlen
    refine ⟨?_, hrest₁.update ⟨hu.coherent, hu.quiet⟩ hlen'⟩
    obtain ⟨hbefore, hupdate⟩ := table_of_call hd ht
    have hr := handleRequest_refusal hd
    rw [QueueTable.handle]
    cases hq : reg.table.refusal x.frame with
    | some r' =>
      rw [hq] at hr
      cases hr
    | none =>
      simp only [hbefore, ← handleRequest_operation hd, happly]
      rw [table_update ht, hupdate, ← handleRequest_opcode hd, replyTo_queueResponse]

end Registry
end Noctua.Rpc
