import Noctua.Rpc.ClientMain
import Noctua.Rpc.Connections

namespace Noctua.Rpc
open Transition
set_option autoImplicit true

/-- A command line that the client accepts: its arguments with an option after them. -/
structure Command where
  program : Text
  command : ClientCommand
  after : List ClientOption
  padding : UInt8
  optioned : after ≠ []
  topicShort : command.call.topicName.length < 2 ^ 16
  messageShort : command.call.message.length < 2 ^ 16

/-- What the client prints of a response. -/
def Response.lines (r : Response) : List ClientLine :=
  .response r.header ::
    if r.data = [] then [] else [if r.errorCode = .ok then .data r.data else .error r.data]

namespace Command

def argv (c : Command) : List Text := commandLine c.program [] c.command c.after

def options (c : Command) : ClientOptions := c.after.foldl ClientOption.set defaultOptions

def request (c : Command) : SentRequest :=
  c.command.call.request c.padding c.topicShort c.messageShort

def run (c : Command) (r : Response) : ClientRun where
  connects := [c.options]
  calls := [c.command.call]
  output := [.connecting c.options, .connected, .sending c.command.call] ++ r.lines ++
    [.disconnected]
  exitCode := 0

end Command

theorem ErrorCode.value_eq_ok {e : ErrorCode} : e.value = ErrorCode.ok.value ↔ e = .ok :=
  ⟨Broker.value_eq_ok, congrArg ErrorCode.value⟩

theorem showResponse_bytes {r : Response} (hs : r.Short) (padding : Vector UInt8 3) :
    showResponse (r.bytes padding) = (r.lines, true) := by
  have hr := r.receiveResponse_bytes padding []
  have hd := Response.receiveResponseData_header hs []
  rw [List.append_nil, List.append_nil] at hr
  rw [List.append_nil] at hd
  have hlen : r.header.messageLen.toNat = r.data.length := UInt16.toNat_ofNat_of_lt' hs
  simp only [showResponse, hr, Response.lines]
  by_cases hok : r.errorCode = .ok
  · have hv : ¬ r.header.errorCode ≠ ErrorCode.ok.value :=
      not_not_intro (ErrorCode.value_eq_ok.2 hok)
    rw [if_neg hv]
    by_cases hdata : r.data = []
    · have hz : ¬ 0 < r.header.messageLen := by
        rw [UInt16.lt_iff_toNat_lt, hlen, hdata]
        exact Nat.lt_irrefl 0
      rw [if_neg hz, if_pos hdata]
    · have hpos : 0 < r.header.messageLen := by
        rw [UInt16.lt_iff_toNat_lt, hlen]
        exact List.length_pos_iff.2 hdata
      rw [if_pos hpos, hd]
      simp only [Response.received, if_neg hdata, if_pos hok, Option.toList_some, List.map_cons,
        List.map_nil]
  · have hv : r.header.errorCode ≠ ErrorCode.ok.value := mt ErrorCode.value_eq_ok.1 hok
    rw [if_pos hv, hd]
    by_cases hdata : r.data = []
    · simp only [Response.received, if_pos hdata, Option.toList_none, List.map_nil]
    · simp only [Response.received, if_neg hdata, if_neg hok, Option.toList_some, List.map_cons,
        List.map_nil]

theorem chooseCall_argv (c : Command) :
    chooseCall (c.argv.getD 1 []) c.argv = .ok c.command.call := by
  have hg : c.argv.getD 1 [] = c.command.arguments.headD [] := by
    rw [Command.argv]
    cases c.command <;> rfl
  have hc := chooseCall_command c.program c.command (c.after.flatMap ClientOption.arguments)
  rw [if_neg (mt (options_eq_nil c.after).1 c.optioned)] at hc
  rw [hg]
  change (chooseCall _ c.argv).toOption = _ at hc
  cases h : chooseCall (c.command.arguments.headD []) c.argv with
  | error lines =>
    rw [h] at hc
    cases hc
  | ok call =>
    rw [h] at hc
    exact congrArg _ (Option.some.inj hc)

/-- A command prints the response that its server sends. -/
theorem clientMain_run (c : Command) {r : Response} (hs : r.Short) (padding : Vector UInt8 3) :
    clientMain ⟨true, true, r.bytes padding⟩ c.argv = c.run r := by
  have hl : ¬ c.argv.length < 3 := Nat.not_lt.2 (commandLine_length ..)
  have ho : scanOptions defaultOptions (c.argv.drop 2) = c.options := by
    have hc := (clientMain_without c.program ⟨true, true, []⟩ c.command c.after).1
    rw [clientMain_connects _ _ (commandLine_length ..)] at hc
    exact (List.cons.inj hc).1
  rw [clientMain, if_neg hl]
  simp only [chooseCall_argv, ho, showResponse_bytes hs, Bool.true_eq_false, if_false, if_true]
  rfl

namespace QueueTable

/-- A request that a client sends; one that is too large is rejected. -/
def request (q : QueueTable) (r : SentRequest) : QueueTable × Response :=
  if h : r.Fits then q.handle (r.frame h)
  else (q, errorResponse r.opcode .internalError "Data too large")

def requests (q : QueueTable) : List SentRequest → QueueTable × List Response
  | [] => (q, [])
  | r :: rs =>
    let (q', x) := q.request r
    let (q'', xs) := requests q' rs
    (q'', x :: xs)

variable {q : QueueTable} {f : Frame}

theorem handleRequests_request (r : SentRequest) : handleRequests r.bytes =
    if h : r.Fits then ([r.frame h], none)
    else ([], some (errorResponse r.opcode .internalError "Data too large")) := by
  rw [handleRequests_eq]
  by_cases h : r.Fits
  · have hr := receive_fits h []
    rw [List.append_nil] at hr
    have hnil : handleRequests [] = ([], none) := by
      rw [handleRequests_eq]
      rfl
    rw [hr, dif_pos h]
    simp only [hnil]
  · have hr := receive_tooLarge h []
    rw [List.append_nil] at hr
    rw [hr, dif_neg h]

theorem serve_requests (q : QueueTable) (rs : List SentRequest) :
    q.serve (rs.map SentRequest.bytes) =
      ((q.requests rs).1, (q.requests rs).2.map fun r => [r]) := by
  induction rs generalizing q with
  | nil => rfl
  | cons r rs ih =>
    rw [List.map_cons, serve, handleRequests_request, requests, request]
    by_cases h : r.Fits
    · simp only [dif_pos h, answer, Option.toList_none, ih, List.map_cons]
    · simp only [dif_neg h, answer, Option.toList_some, ih, List.map_cons]

def Short (q : QueueTable) : Prop :=
  ∀ name texts, q name = some texts → ∀ x ∈ texts, x.length < 2 ^ 16

theorem short_empty : empty.Short := fun _ _ h => nomatch h

theorem refusal_short (h : q.refusal f = some r) : r.Short := by
  rw [refusal] at h
  repeat' split at h
  all_goals cases h
  all_goals exact Broker.errorResponse_short (by decide +kernel)

theorem apply_short {texts : List Text} (hx : ∀ x ∈ texts, x.length < 2 ^ 16) (f : Frame) :
    (∀ x ∈ (Fifo.apply texts f.operation).1, x.length < 2 ^ 16) ∧
      (queueResponse f.operation (Fifo.apply texts f.operation).2).Short := by
  have hempty (opcode : UInt8) : (errorResponse opcode .emptyPartition
      "No messages in partition").Short := Broker.errorResponse_short (by decide +kernel)
  have hok (opcode : UInt8) : (okResponse opcode).Short := Nat.two_pow_pos 16
  cases hop : f.operation with
  | push text =>
    refine ⟨?_, hok _⟩
    have htext : text = f.message := by
      rw [Frame.operation] at hop
      split at hop
      · exact (Fifo.Op.push.inj hop).symm
      · split at hop <;> cases hop
    subst htext
    exact List.forall_mem_append.2 ⟨hx, List.forall_mem_singleton.2 f.message_short⟩
  | read =>
    refine ⟨hx, ?_⟩
    rw [Fifo.apply]
    cases hh : texts.head? with
    | none => exact hempty _
    | some x => exact hx x (List.mem_of_head? hh)
  | remove text =>
    rw [Fifo.apply]
    split
    · exact ⟨fun x hm => hx x (List.mem_of_mem_tail hm), hok _⟩
    · exact ⟨hx, hok _⟩

theorem Short.handle (h : q.Short) (f : Frame) : (q.handle f).1.Short ∧ (q.handle f).2.Short := by
  rw [QueueTable.handle]
  cases hr : q.refusal f with
  | some r => exact ⟨h, refusal_short hr⟩
  | none =>
    have htexts : ∀ x ∈ (q f.topicName).getD [], x.length < 2 ^ 16 := by
      cases hq : q f.topicName with
      | none =>
        intro x hx
        cases hx
      | some texts => exact h _ _ hq
    obtain ⟨hall, hresponse⟩ := apply_short htexts f
    refine ⟨fun name texts hq => ?_, hresponse⟩
    by_cases hn : name = f.topicName
    · subst hn
      simp only [Function.update_self, Option.some.injEq] at hq
      exact hq ▸ hall
    · simp only [Function.update_of_ne hn] at hq
      exact h name texts hq

theorem Short.request (h : q.Short) (r : SentRequest) :
    (q.request r).1.Short ∧ (q.request r).2.Short := by
  rw [QueueTable.request]
  split
  · exact h.handle _
  · exact ⟨h, Broker.errorResponse_short (by decide +kernel)⟩

theorem Short.requests (h : q.Short) (rs : List SentRequest) :
    ∀ r ∈ (q.requests rs).2, r.Short := by
  induction rs generalizing q with
  | nil => exact fun r hr => nomatch hr
  | cons r rs ih =>
    obtain ⟨hq, hr⟩ := h.request r
    exact List.forall_mem_cons.2 ⟨hr, ih hq⟩

end QueueTable

namespace Broker

/-- Commands that are given one after the other, the server coming to the end of each without
undefined behaviour: it sends each the one response with which the table answers its request and
closes the connection, the client prints the response and succeeds, and the partitions hold what the
table holds. -/
theorem commands_run (commands : List Command)
    (h : InTurn {} (commands.map fun c => c.request.bytes) b responses) :
    (QueueTable.empty.requests (commands.map Command.request)).1 = b.registry.table ∧
      (∀ session ∈ b.sessions, session.state = .closed) ∧
      responses =
        (QueueTable.empty.requests (commands.map Command.request)).2.map (fun r => [r]) ∧
      ∀ x ∈ commands.zip (QueueTable.empty.requests (commands.map Command.request)).2,
        ∀ padding, clientMain ⟨true, true, x.2.bytes padding⟩ x.1.argv = x.1.run x.2 := by
  obtain ⟨hserve, hclosed⟩ :=
    h.serves attended_init Registry.atRest_nil fun _ hs => nomatch hs
  have hmap : commands.map (fun c => c.request.bytes) =
      (commands.map Command.request).map SentRequest.bytes := by
    rw [List.map_map]
    rfl
  rw [hmap] at hserve
  have hreq := QueueTable.serve_requests QueueTable.empty (commands.map Command.request)
  obtain ⟨htable, hresponses⟩ := Prod.mk.inj (hreq.symm.trans hserve)
  refine ⟨htable, hclosed, hresponses.symm, fun x hx padding => ?_⟩
  exact clientMain_run x.1 (QueueTable.short_empty.requests _ x.2 (List.of_mem_zip hx).2) padding

/-- A push of "b" to the topic "a" and then a pull, both of the server at port 8081. -/
def pushThenPullCommands : List Command :=
  let a : Argument := ⟨[97], by decide +kernel, by decide +kernel⟩
  let b : Argument := ⟨[98], by decide +kernel, by decide +kernel⟩
  let zero : Decimal := ⟨[48], by decide, by decide +kernel, by decide +kernel⟩
  let port : ClientOption :=
    .port ⟨[56, 48, 56, 49], by decide, by decide +kernel, by decide +kernel⟩
  [⟨[], .push a zero b, [port], 0, by decide, by decide, by decide⟩,
    ⟨[], .pull a zero, [port], 0, by decide, by decide, by decide⟩]

theorem commands_run_pushThenPull :
    ∃ b : Broker, (QueueTable.empty.requests (pushThenPullCommands.map Command.request)).1 =
        b.registry.table ∧
      [[okResponse Opcode.push], [dataResponse Opcode.pull [98]]] =
        (QueueTable.empty.requests (pushThenPullCommands.map Command.request)).2.map
          (fun r => [r]) := by
  obtain ⟨b, hturn⟩ := inTurn_pushThenPull
  have hbytes : pushThenPull = pushThenPullCommands.map fun c => c.request.bytes := by
    decide +kernel
  have hrun := commands_run pushThenPullCommands (hbytes ▸ hturn)
  exact ⟨b, hrun.1, hrun.2.2.1⟩

end Broker
end Noctua.Rpc
