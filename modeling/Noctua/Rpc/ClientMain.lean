import Noctua.Rpc.Client
import Mathlib.Data.List.TakeWhile

namespace Noctua.Rpc
set_option autoImplicit true

def literal (s : String) : Text := s.toUTF8.toList

def isSpace (c : UInt8) : Bool := c = 32 || (9 ≤ c && c ≤ 13)

def isDigit (c : UInt8) : Bool := 48 ≤ c && c ≤ 57

def digitsValue (ds : Text) : Nat := ds.foldl (fun n c => 10 * n + (c.toNat - 48)) 0

/-- White space, a sign, and then digits as far as there are any. A value beyond `long` is not the
library's. -/
def atoi (s : Text) : Int :=
  match s.dropWhile isSpace with
  | 45 :: ds => -digitsValue (ds.takeWhile isDigit)
  | 43 :: ds => digitsValue (ds.takeWhile isDigit)
  | ds => digitsValue (ds.takeWhile isDigit)

def castUInt16 (n : Int) : UInt16 := UInt16.ofNat (n % 2 ^ 16).toNat

structure ClientOptions where
  host : Text
  port : UInt16
  deriving DecidableEq, Repr

def defaultOptions : ClientOptions := ⟨literal "127.0.0.1", 8080⟩

def hostOption : Text := literal "--host"

def portOption : Text := literal "--port"

/-- The loop over the arguments: an option takes the argument after it, everything else is
passed over. -/
def scanOptions (options : ClientOptions) : List Text → ClientOptions
  | arg :: value :: rest =>
    if arg = hostOption then scanOptions { options with host := value } rest
    else if arg = portOption then
      scanOptions { options with port := castUInt16 (atoi value) } rest
    else scanOptions options (value :: rest)
  | _ => options

inductive ClientLine where
  | help
  | connecting (options : ClientOptions)
  | connected
  | sending (call : ClientCall)
  | response (header : ResponseHeader)
  | error (text : Text)
  | data (text : Text)
  | disconnected
  | stderr (text : Text)
  | exception
  deriving DecidableEq, Repr

/-- What the client meets: whether it can connect, whether it can write its request, and the
bytes that the server sends. -/
structure Network where
  connects : Bool
  writes : Bool
  input : List UInt8

structure ClientRun where
  connects : List ClientOptions := []
  calls : List ClientCall := []
  output : List ClientLine
  exitCode : Nat
  deriving DecidableEq, Repr

/-- The branch for the command: the call, or what is printed before the client gives up. -/
def chooseCall (command : Text) (argv : List Text) : Except (List ClientLine) ClientCall :=
  let argument (i : Nat) := argv.getD i []
  if command = literal "push" then
    if argv.length < 6 then
      .error [.stderr (literal "Error: push requires <topic> <partition> <message>"), .help]
    else .ok (.sendPush (argument 2) (castUInt16 (atoi (argument 3))) (argument 4))
  else if command = literal "pull" then
    if argv.length < 5 then
      .error [.stderr (literal "Error: pull requires <topic> <partition>"), .help]
    else .ok (.sendPull (argument 2) (castUInt16 (atoi (argument 3))))
  else if command = literal "delete" then
    if argv.length < 6 then
      .error [.stderr (literal "Error: delete requires <topic> <partition> <message>"), .help]
    else .ok (.sendDelete (argument 2) (castUInt16 (atoi (argument 3))) (argument 4))
  else
    .error [.stderr (literal "Error: Unknown command '" ++ command ++ literal "'"), .help]

/-- What is printed of a response, and whether all reads succeeded; a read that meets the end of
the stream throws. -/
def showResponse (input : List UInt8) : List ClientLine × Bool :=
  match receiveResponse input with
  | none => ([], false)
  | some (header, input) =>
    if header.errorCode ≠ ErrorCode.ok.value then
      match receiveResponseData header input with
      | none => ([.response header], false)
      | some (data, _) => (.response header :: data.toList.map .error, true)
    else if 0 < header.messageLen then
      match receiveResponseData header input with
      | none => ([.response header], false)
      | some (data, _) => (.response header :: data.toList.map .data, true)
    else ([.response header], true)

def clientMain (net : Network) (argv : List Text) : ClientRun :=
  if argv.length < 3 then { output := [.help], exitCode := 1 }
  else
    let command := argv.getD 1 []
    let options := scanOptions defaultOptions (argv.drop 2)
    let output := [.connecting options]
    if net.connects = false then
      { connects := [options], output := output ++ [.exception], exitCode := 1 }
    else
      let output := output ++ [.connected]
      match chooseCall command argv with
      | .error lines => { connects := [options], output := output ++ lines, exitCode := 1 }
      | .ok call =>
        let (lines, shown) := if net.writes then showResponse net.input else ([], false)
        { connects := [options]
          calls := [call]
          output := output ++ .sending call :: (lines ++ if shown then [.disconnected]
            else [.exception])
          exitCode := if shown then 0 else 1 }

/-- A decimal number that fits in 16 bits, leading zeros allowed. -/
structure Decimal where
  digits : Text
  nonempty : digits ≠ []
  isDigits : ∀ c ∈ digits, isDigit c
  small : digitsValue digits < 2 ^ 16

def Decimal.value (d : Decimal) : UInt16 := UInt16.ofNat (digitsValue d.digits)

/-- An argument that is not the name of an option. -/
structure Argument where
  text : Text
  notHost : text ≠ hostOption
  notPort : text ≠ portOption

inductive ClientCommand where
  | push (topic : Argument) (partition : Decimal) (message : Argument)
  | pull (topic : Argument) (partition : Decimal)
  | delete (topic : Argument) (partition : Decimal) (message : Argument)

namespace ClientCommand

def arguments : ClientCommand → List Text
  | push t p m => [literal "push", t.text, p.digits, m.text]
  | pull t p => [literal "pull", t.text, p.digits]
  | delete t p m => [literal "delete", t.text, p.digits, m.text]

def call : ClientCommand → ClientCall
  | push t p m => .sendPush t.text p.value m.text
  | pull t p => .sendPull t.text p.value
  | delete t p m => .sendDelete t.text p.value m.text

end ClientCommand

inductive ClientOption where
  | host (value : Text)
  | port (value : Decimal)

namespace ClientOption

def arguments : ClientOption → List Text
  | host value => [hostOption, value]
  | port value => [portOption, value.digits]

def set (options : ClientOptions) : ClientOption → ClientOptions
  | host value => { options with host := value }
  | port value => { options with port := value.value }

end ClientOption

def commandLine (program : Text) (before : List ClientOption) (command : ClientCommand)
    (after : List ClientOption) : List Text :=
  program :: (before.flatMap ClientOption.arguments ++
    (command.arguments ++ after.flatMap ClientOption.arguments))

namespace ClientCall

def buffer (call : ClientCall) (padding : UInt8) : RawMemory :=
  sendBuffer padding call.opcode call.topicName call.partitionId call.message

def totalSize (call : ClientCall) : Nat := Rpc.totalSize call.topicName call.message

def bytes (call : ClientCall) (padding : UInt8) : List UInt8 :=
  sendRequest padding call.opcode call.topicName call.partitionId call.message

/-- These bytes are one request, and it says what the call was given. -/
structure IsRequest (call : ClientCall) (bs : List UInt8) : Prop where
  complete : sizeofRequestHeader ≤ bs.length
  magic : (RequestHeader.ofBytes (bs.take sizeofRequestHeader)).magic = rpcMagic
  opcode : (RequestHeader.ofBytes (bs.take sizeofRequestHeader)).opcode = call.opcode
  topicNameLen : (RequestHeader.ofBytes (bs.take sizeofRequestHeader)).topicNameLen.toNat =
    call.topicName.length
  partitionId : (RequestHeader.ofBytes (bs.take sizeofRequestHeader)).partitionId =
    call.partitionId
  messageLen : (RequestHeader.ofBytes (bs.take sizeofRequestHeader)).messageLen.toNat =
    call.message.length
  follow : bs.drop sizeofRequestHeader = call.topicName ++ call.message

end ClientCall

/-- The client connects to the given host and port, a later option overriding an earlier one and
the defaults, and writes the one request that the command names, all of it inside its buffer. -/
def DoesWhatHelpSays (before : List ClientOption) (command : ClientCommand)
    (after : List ClientOption) : Prop :=
  ∀ program net padding, let run := clientMain net (commandLine program before command after)
    run.connects = [(before ++ after).foldl ClientOption.set defaultOptions] ∧
      (∀ call ∈ run.calls, (call.buffer padding).WritesInside 0 call.totalSize) ∧
        if net.connects then
          ∃ bs, run.calls.map (·.bytes padding) = [bs] ∧ command.call.IsRequest bs
        else run.calls = []

theorem isDigit_iff : isDigit c = true ↔ 48 ≤ c.toNat ∧ c.toNat ≤ 57 := by
  rw [isDigit, Bool.and_eq_true, decide_eq_true_iff, decide_eq_true_iff, UInt8.le_iff_toNat_le,
    UInt8.le_iff_toNat_le]
  exact Iff.rfl

theorem not_isSpace_of_isDigit (h : isDigit c = true) : isSpace c = false := by
  have hd := isDigit_iff.1 h
  rw [isSpace, Bool.or_eq_false_iff, Bool.and_eq_false_iff, decide_eq_false_iff_not,
    decide_eq_false_iff_not, decide_eq_false_iff_not, UInt8.le_iff_toNat_le,
    UInt8.le_iff_toNat_le]
  constructor
  · rintro rfl
    exact absurd hd (by decide)
  · apply Or.inr
    intro hle
    exact absurd (hd.1.trans hle) (by decide)

theorem atoi_digits (d : Decimal) : atoi d.digits = digitsValue d.digits := by
  obtain ⟨ds, hne, hd, hs⟩ := d
  have ht : ds.takeWhile isDigit = ds := List.takeWhile_eq_self_iff.2 hd
  cases ds with
  | nil => exact (hne rfl).elim
  | cons c cs =>
    have hc := hd c List.mem_cons_self
    have hw : (c :: cs).dropWhile isSpace = c :: cs := by
      rw [List.dropWhile_cons, not_isSpace_of_isDigit hc]
      rfl
    simp only [atoi, hw]
    split
    · rename_i he
      cases he
      exact absurd hc (by decide)
    · rename_i he
      cases he
      exact absurd hc (by decide)
    · rw [ht]

theorem castUInt16_atoi (d : Decimal) : castUInt16 (atoi d.digits) = d.value := by
  rw [atoi_digits, castUInt16, Decimal.value]
  congr 1
  have h := d.small
  omega

theorem scanOptions_plain (hh : arg ≠ hostOption) (hp : arg ≠ portOption)
    (options : ClientOptions) (rest : List Text) :
    scanOptions options (arg :: rest) = scanOptions options rest := by
  cases rest with
  | nil => rfl
  | cons value rest => rw [scanOptions, if_neg hh, if_neg hp]

theorem portOption_ne_hostOption : portOption ≠ hostOption := by decide +kernel

theorem scanOptions_arguments (after : List ClientOption) (options : ClientOptions) :
    scanOptions options (after.flatMap ClientOption.arguments) =
      after.foldl ClientOption.set options := by
  induction after generalizing options with
  | nil => rfl
  | cons o after ih =>
    rw [List.flatMap_cons, List.foldl_cons, ← ih]
    cases o with
    | host value =>
      rw [ClientOption.arguments, List.cons_append, List.cons_append, scanOptions, if_pos rfl]
      rfl
    | port value =>
      rw [ClientOption.arguments, List.cons_append, List.cons_append, scanOptions,
        if_neg portOption_ne_hostOption, if_pos rfl, castUInt16_atoi]
      rfl

theorem Decimal.notOption (d : Decimal) : d.digits ≠ hostOption ∧ d.digits ≠ portOption := by
  have hn (ds : Text) (hm : 45 ∈ ds) : d.digits ≠ ds := by
    rintro rfl
    exact absurd (d.isDigits 45 hm) (by decide)
  exact ⟨hn _ (by decide +kernel), hn _ (by decide +kernel)⟩

theorem scanOptions_command (command : ClientCommand) (after : List ClientOption) :
    scanOptions defaultOptions (command.arguments.tail ++ after.flatMap ClientOption.arguments) =
      after.foldl ClientOption.set defaultOptions := by
  have plain (a : Argument) := scanOptions_plain a.notHost a.notPort
  have digits (d : Decimal) := scanOptions_plain d.notOption.1 d.notOption.2
  rw [← scanOptions_arguments]
  cases command with
  | push t p m =>
    simp only [ClientCommand.arguments, List.tail_cons, List.cons_append, List.nil_append, plain,
      digits]
  | pull t p =>
    simp only [ClientCommand.arguments, List.tail_cons, List.cons_append, List.nil_append, plain,
      digits]
  | delete t p m =>
    simp only [ClientCommand.arguments, List.tail_cons, List.cons_append, List.nil_append, plain,
      digits]

theorem clientMain_connects (net : Network) (argv : List Text) (h : 3 ≤ argv.length) :
    (clientMain net argv).connects = [scanOptions defaultOptions (argv.drop 2)] := by
  rw [clientMain, if_neg (Nat.not_lt.2 h)]
  split
  · rfl
  · dsimp only
    split <;> rfl

theorem clientMain_calls (net : Network) (argv : List Text) (h : 3 ≤ argv.length) :
    (clientMain net argv).calls = if net.connects then
      (chooseCall (argv.getD 1 []) argv).toOption.toList else [] := by
  rw [clientMain, if_neg (Nat.not_lt.2 h)]
  cases net.connects with
  | false => rfl
  | true =>
    dsimp only
    cases chooseCall (argv.getD 1 []) argv <;> rfl

theorem chooseCall_option (h : command = hostOption ∨ command = portOption) :
    (chooseCall command argv).toOption = none := by
  have hn : command ≠ literal "push" ∧ command ≠ literal "pull" ∧ command ≠ literal "delete" := by
    obtain rfl | rfl := h
    · decide +kernel
    · decide +kernel
  rw [chooseCall, if_neg hn.1, if_neg hn.2.1, if_neg hn.2.2]
  rfl

/-- The checks of the number of arguments ask for one more than the command has. -/
theorem chooseCall_command (program : Text) (command : ClientCommand) (rest : List Text) :
    (chooseCall (command.arguments.headD []) (program :: (command.arguments ++ rest))).toOption =
      if rest = [] then none else some command.call := by
  have pull : literal "pull" ≠ literal "push" := by decide +kernel
  have delete : literal "delete" ≠ literal "push" ∧ literal "delete" ≠ literal "pull" := by
    decide +kernel
  cases command with
  | push t p m =>
    rw [ClientCommand.arguments, List.headD_cons, chooseCall, if_pos rfl]
    cases rest with
    | nil => rfl
    | cons r rs =>
      rw [if_neg (by simp), if_neg (List.cons_ne_nil _ _), ClientCommand.call, ← castUInt16_atoi]
      rfl
  | pull t p =>
    rw [ClientCommand.arguments, List.headD_cons, chooseCall, if_neg pull, if_pos rfl]
    cases rest with
    | nil => rfl
    | cons r rs =>
      rw [if_neg (by simp), if_neg (List.cons_ne_nil _ _), ClientCommand.call, ← castUInt16_atoi]
      rfl
  | delete t p m =>
    rw [ClientCommand.arguments, List.headD_cons, chooseCall, if_neg delete.1, if_neg delete.2,
      if_pos rfl]
    cases rest with
    | nil => rfl
    | cons r rs =>
      rw [if_neg (by simp), if_neg (List.cons_ne_nil _ _), ClientCommand.call, ← castUInt16_atoi]
      rfl

theorem commandLine_length (program : Text) (before : List ClientOption)
    (command : ClientCommand) (after : List ClientOption) :
    3 ≤ (commandLine program before command after).length := by
  have hc : 2 ≤ command.arguments.length := by
    cases command with
    | push | delete => exact Nat.le_add_left 2 2
    | pull => exact Nat.le_succ 2
  simp only [commandLine, List.length_cons, List.length_append]
  omega

theorem options_eq_nil (after : List ClientOption) :
    after.flatMap ClientOption.arguments = [] ↔ after = [] := by
  rw [List.flatMap_eq_nil_iff]
  constructor
  · intro h
    cases after with
    | nil => rfl
    | cons o after =>
      have ho := h o List.mem_cons_self
      cases o with
      | host | port => cases ho
  · rintro rfl o ho
    cases ho

theorem clientMain_without (program : Text) (net : Network) (command : ClientCommand)
    (after : List ClientOption) :
    (clientMain net (commandLine program [] command after)).connects =
        [after.foldl ClientOption.set defaultOptions] ∧
      (clientMain net (commandLine program [] command after)).calls =
        if net.connects ∧ after ≠ [] then [command.call] else [] := by
  have hl := commandLine_length program [] command after
  have hd (rest : List Text) : (program :: (command.arguments ++ rest)).drop 2 =
      command.arguments.tail ++ rest := by cases command <;> rfl
  have hg (rest : List Text) : (program :: (command.arguments ++ rest)).getD 1 [] =
      command.arguments.headD [] := by cases command <;> rfl
  rw [clientMain_connects net _ hl, clientMain_calls net _ hl]
  simp only [commandLine, List.flatMap_nil, List.nil_append, hd, hg, scanOptions_command,
    chooseCall_command, options_eq_nil, true_and]
  by_cases ha : after = []
  · simp only [ha, if_true, ne_eq, not_true_eq_false, and_false, if_false, Option.toList_none,
      ite_self]
  · simp only [ha, if_false, ne_eq, not_false_eq_true, and_true, Option.toList_some]

/-- With an option in front, the option's name is taken for the command. -/
theorem clientMain_before (program : Text) (net : Network) (o : ClientOption)
    (before : List ClientOption) (command : ClientCommand) (after : List ClientOption) :
    (clientMain net (commandLine program (o :: before) command after)).calls = [] := by
  rw [clientMain_calls net _ (commandLine_length ..), chooseCall_option]
  · exact ite_self _
  · cases o with
    | host value => exact .inl rfl
    | port value => exact .inr rfl

namespace ClientCall
variable {call : ClientCall}

theorem isRequest_bytes (htopic : call.topicName.length < 2 ^ 16)
    (hmessage : call.message.length < 2 ^ 16) (padding : UInt8) :
    call.IsRequest (call.bytes padding) := by
  have header : RequestHeader.ofBytes ((call.bytes padding).take sizeofRequestHeader) =
      requestHeader call.opcode call.topicName call.partitionId call.message :=
    ofBytes_sendRequest _ _ _ _ _ htopic hmessage
  constructor
  case complete =>
    rw [bytes, sendRequest, RawMemory.read_length, Rpc.totalSize, Nat.add_assoc]
    exact Nat.le_add_right _ _
  case magic => rw [header]; rfl
  case opcode => rw [header]; rfl
  case topicNameLen =>
    rw [header]
    exact UInt16.toNat_ofNat_of_lt' htopic
  case partitionId => rw [header]; rfl
  case messageLen =>
    rw [header]
    exact UInt16.toNat_ofNat_of_lt' hmessage
  case follow => exact drop_sendRequest _ _ _ _ _ htopic hmessage

theorem IsRequest.lengths (h : call.IsRequest bs) :
    call.topicName.length < 2 ^ 16 ∧ call.message.length < 2 ^ 16 := by
  rw [← h.topicNameLen, ← h.messageLen]
  exact ⟨UInt16.toNat_lt _, UInt16.toNat_lt _⟩

end ClientCall

/-- The client does what its help text says exactly when no option comes before the command, at
least one comes after the positional arguments, and the two lengths fit in the header. -/
theorem command_line_iff (before : List ClientOption) (command : ClientCommand)
    (after : List ClientOption) :
    DoesWhatHelpSays before command after ↔ before = [] ∧ after ≠ [] ∧
      command.call.topicName.length < 2 ^ 16 ∧ command.call.message.length < 2 ^ 16 := by
  constructor
  · intro h
    obtain ⟨-, -, bs, hs, hb⟩ := h [] ⟨true, true, []⟩ 0
    cases before with
    | cons o before =>
      rw [clientMain_before] at hs
      cases hs
    | nil =>
      refine ⟨rfl, fun hn => ?_, hb.lengths⟩
      rw [(clientMain_without ..).2, hn] at hs
      cases hs
  · rintro ⟨rfl, hn, htopic, hmessage⟩ program net padding
    obtain ⟨hc, hr⟩ := clientMain_without program net command after
    have hcalls : (clientMain net (commandLine program [] command after)).calls =
        if net.connects then [command.call] else [] := by
      simp only [hr, hn, ne_eq, not_false_eq_true, and_true]
    refine ⟨hc, ?_, ?_⟩
    · intro call hcall
      have he : call = command.call := by
        rw [hcalls] at hcall
        split at hcall
        · exact List.mem_singleton.1 hcall
        · cases hcall
      rw [he]
      exact (writesInside_sendBuffer ..).2 ⟨htopic, hmessage⟩
    · rw [hcalls]
      cases net.connects with
      | true => exact ⟨_, rfl, ClientCall.isRequest_bytes htopic hmessage padding⟩
      | false => rfl

/-- The first example of the help text: a PUSH without options. -/
theorem command_line_fails : ¬ ∀ before command after, DoesWhatHelpSays before command after := by
  intro h
  have topic : literal "my-topic" ≠ hostOption ∧ literal "my-topic" ≠ portOption := by
    decide +kernel
  have message : literal "Hello World" ≠ hostOption ∧ literal "Hello World" ≠ portOption := by
    decide +kernel
  have digit : ∀ c ∈ [(48 : UInt8)], isDigit c := List.forall_mem_singleton.2 (by decide)
  obtain ⟨-, -, bs, hs, -⟩ := h [] (.push ⟨_, topic.1, topic.2⟩ ⟨[48], by decide, digit, by decide⟩
    ⟨_, message.1, message.2⟩) [] [] ⟨true, true, []⟩ 0
  rw [(clientMain_without ..).2] at hs
  cases hs

end Noctua.Rpc
