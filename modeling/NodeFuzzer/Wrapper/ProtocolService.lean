import NodeFuzzer.Library.Rpc

/-!
# The protocol runner and its controller

`ProtocolController` and `process_protocol_commands` of `service.rs`.  The node sends commands to
a protocol runner, a process of its own, and matches each reply against the one kind it expects.
What the payloads of commands and replies are does not matter here: they are given by families.

A reply that has another kind than the call expects is an error of the call.  Over a connection that
keeps the order of what is sent this happens to no call before an operation has failed, but for two
queries that are told by the kind of a third that there is no index.
-/

namespace NodeFuzzer

namespace Wrapper

/-! ## Messages -/

/-- The variants of `ProtocolMessage`. -/
inductive ProtocolCall where
  | applyBlockCall
  | assertEncodingForProtocolDataCall
  | beginApplicationCall
  | beginConstructionCall
  | validateOperationCall
  | protocolRpcCall
  | helpersPreapplyOperationsCall
  | helpersPreapplyBlockCall
  | computePathCall
  | changeRuntimeConfigurationCall
  | initProtocolContextCall
  | initProtocolContextIpcServer
  | genesisResultDataCall
  | jsonEncodeApplyBlockResultMetadata
  | jsonEncodeApplyBlockOperationsMetadata
  | contextGetKeyFromHistory
  | contextGetKeyValuesByPrefix
  | contextGetTreeByPrefix
  | shutdownCall
deriving DecidableEq

/-- The variants of `NodeMessage`. -/
inductive NodeMessageKind where
  | applyBlockResult
  | assertEncodingForProtocolDataResult
  | beginApplicationResult
  | beginConstructionResult
  | validateOperationResponse
  | rpcResponse
  | helpersPreapplyResponse
  | changeRuntimeConfigurationResult
  | initProtocolContextResult
  | initProtocolContextIpcServerResult
  | commitGenesisResultData
  | computePathResponse
  | jsonEncodeApplyBlockResultMetadataResponse
  | jsonEncodeApplyBlockOperationsMetadata
  | contextGetKeyFromHistoryResult
  | contextGetKeyValuesByPrefixResult
  | contextGetTreeByPrefixResult
  | shutdownResult
deriving DecidableEq

/-- The payloads of the commands, and the values and errors the replies carry. -/
structure Payloads where
  Request : ProtocolCall → Type
  Value : NodeMessageKind → Type
  Reason : NodeMessageKind → Type

namespace Payloads

/-- The value of a reply.  A shutdown has none. -/
def Success (T : Payloads) : NodeMessageKind → Type
  | .shutdownResult => Unit
  | kind => T.Value kind

/-- The error of a reply, which is a text for the calls about the context.  A shutdown has none. -/
def Failure (T : Payloads) : NodeMessageKind → Type
  | .initProtocolContextIpcServerResult => String
  | .contextGetKeyFromHistoryResult => String
  | .contextGetKeyValuesByPrefixResult => String
  | .contextGetTreeByPrefixResult => String
  | .shutdownResult => Empty
  | kind => T.Reason kind

end Payloads

variable {T : Payloads} {W : Type}

/-- `ProtocolMessage`. -/
structure ProtocolMessage (T : Payloads) where
  call : ProtocolCall
  request : T.Request call

/-- `NodeMessage`. -/
structure NodeMessage (T : Payloads) where
  kind : NodeMessageKind
  result : Except (T.Failure kind) (T.Success kind)

/-! ## The runner -/

/-- The kind of reply `process_protocol_commands` sends about a command. -/
def ProtocolCall.replied : ProtocolCall → NodeMessageKind
  | .applyBlockCall => .applyBlockResult
  | .assertEncodingForProtocolDataCall => .assertEncodingForProtocolDataResult
  | .beginConstructionCall => .beginConstructionResult
  | .beginApplicationCall => .beginApplicationResult
  | .validateOperationCall => .validateOperationResponse
  | .protocolRpcCall => .rpcResponse
  | .helpersPreapplyOperationsCall => .helpersPreapplyResponse
  | .helpersPreapplyBlockCall => .helpersPreapplyResponse
  | .computePathCall => .computePathResponse
  | .changeRuntimeConfigurationCall => .changeRuntimeConfigurationResult
  | .initProtocolContextCall => .initProtocolContextResult
  | .initProtocolContextIpcServer => .initProtocolContextIpcServerResult
  | .genesisResultDataCall => .commitGenesisResultData
  | .jsonEncodeApplyBlockResultMetadata => .jsonEncodeApplyBlockResultMetadataResponse
  | .jsonEncodeApplyBlockOperationsMetadata => .jsonEncodeApplyBlockOperationsMetadata
  | .contextGetKeyFromHistory => .contextGetKeyFromHistoryResult
  | .contextGetKeyValuesByPrefix => .contextGetKeyValuesByPrefixResult
  | .contextGetTreeByPrefix => .contextGetTreeByPrefixResult
  | .shutdownCall => .shutdownResult

/-- The commands that read the context through its index. -/
def ProtocolCall.readsContext : ProtocolCall → Bool
  | .contextGetKeyFromHistory => true
  | .contextGetKeyValuesByPrefix => true
  | .contextGetTreeByPrefix => true
  | _ => false

/-- What the runner serves its commands with: the result of a call, which is that of the protocol
or of the index, and what `get_context_index` finds.  It fails when its lock is poisoned. -/
structure Runtime (T : Payloads) (W : Type) where
  result : W → (message : ProtocolMessage T) →
    Except (T.Failure message.call.replied) (T.Success message.call.replied)
  getContextIndex : W → Option Bool

/-- The reply to each command that reads the context when there is no index. -/
def unavailable : NodeMessage T :=
  ⟨.contextGetKeyFromHistoryResult, .error "Context index unavailable"⟩

/-- `process_protocol_commands`, one command of its loop. -/
def processProtocolCommands (runtime : Runtime T W) (world : W) (message : ProtocolMessage T) :
    Rpc.Next (ProtocolMessage T) (NodeMessage T) :=
  if message.call = .shutdownCall then .stops (some ⟨.shutdownResult, .ok ()⟩)
  else if message.call.readsContext then
    match runtime.getContextIndex world with
    -- The error is returned from the loop.
    | none => .stops none
    | some false => .replies unavailable
    | some true => .replies ⟨message.call.replied, runtime.result world message⟩
  else .replies ⟨message.call.replied, runtime.result world message⟩

/-- The runner. -/
def runner (runtime : Runtime T W) :
    Rpc.Server W (ProtocolMessage T) (NodeMessage T) (ProtocolMessage T) :=
  ⟨id, processProtocolCommands runtime⟩

/-! ## The controller -/

/-- The kind of reply the call of a command accepts. -/
def ProtocolCall.expected : ProtocolCall → NodeMessageKind
  | .applyBlockCall => .applyBlockResult
  | .assertEncodingForProtocolDataCall => .assertEncodingForProtocolDataResult
  | .beginApplicationCall => .beginApplicationResult
  | .beginConstructionCall => .beginConstructionResult
  | .validateOperationCall => .validateOperationResponse
  | .computePathCall => .computePathResponse
  | .jsonEncodeApplyBlockResultMetadata => .jsonEncodeApplyBlockResultMetadataResponse
  | .jsonEncodeApplyBlockOperationsMetadata => .jsonEncodeApplyBlockOperationsMetadata
  | .protocolRpcCall => .rpcResponse
  | .helpersPreapplyOperationsCall => .helpersPreapplyResponse
  | .helpersPreapplyBlockCall => .helpersPreapplyResponse
  | .changeRuntimeConfigurationCall => .changeRuntimeConfigurationResult
  | .initProtocolContextCall => .initProtocolContextResult
  | .shutdownCall => .shutdownResult
  | .initProtocolContextIpcServer => .initProtocolContextIpcServerResult
  | .genesisResultDataCall => .commitGenesisResultData
  | .contextGetKeyFromHistory => .contextGetKeyFromHistoryResult
  | .contextGetKeyValuesByPrefix => .contextGetKeyValuesByPrefixResult
  | .contextGetTreeByPrefix => .contextGetTreeByPrefixResult

/-- The variants of `ProtocolError`. -/
inductive ProtocolError where
  | applyBlockError
  | assertEncodingForProtocolDataError
  | beginApplicationError
  | beginConstructionError
  | validateOperationError
  | protocolRpcError
  | helpersPreapplyError
  | computePathError
  | tezosRuntimeConfigurationError
  | ocamlStorageInitError
  | genesisResultDataError
  | ffiJsonEncoderError
  | contextGetKeyFromHistoryError
  | contextGetKeyValuesByPrefixError
deriving DecidableEq

/-- The variant an error of the runner becomes. -/
def ProtocolCall.error : ProtocolCall → Option ProtocolError
  | .applyBlockCall => some .applyBlockError
  | .assertEncodingForProtocolDataCall => some .assertEncodingForProtocolDataError
  | .beginApplicationCall => some .beginApplicationError
  | .beginConstructionCall => some .beginConstructionError
  | .validateOperationCall => some .validateOperationError
  | .computePathCall => some .computePathError
  | .jsonEncodeApplyBlockResultMetadata => some .ffiJsonEncoderError
  | .jsonEncodeApplyBlockOperationsMetadata => some .ffiJsonEncoderError
  | .protocolRpcCall => some .protocolRpcError
  | .helpersPreapplyOperationsCall => some .helpersPreapplyError
  | .helpersPreapplyBlockCall => some .helpersPreapplyError
  | .changeRuntimeConfigurationCall => some .tezosRuntimeConfigurationError
  | .initProtocolContextCall => some .ocamlStorageInitError
  | .genesisResultDataCall => some .genesisResultDataError
  | .contextGetKeyFromHistory => some .contextGetKeyFromHistoryError
  | .contextGetKeyValuesByPrefix => some .contextGetKeyValuesByPrefixError
  | .contextGetTreeByPrefix => some .contextGetKeyValuesByPrefixError
  | .initProtocolContextIpcServer => none
  | .shutdownCall => none

/-- `ProtocolServiceError`, as far as the calls return it. -/
inductive ProtocolServiceError (T : Payloads) where
  | ipcError
  | protocolError (variant : ProtocolError) (kind : NodeMessageKind) (reason : T.Failure kind)
  | unexpectedMessage (message : NodeMessageKind)
  | contextIpcServerError (message : String)

/-- The error a call makes of one of the runner. -/
def failed (call : ProtocolCall) (reason : T.Failure call.expected) : ProtocolServiceError T :=
  match call.error with
  | some variant => .protocolError variant call.expected reason
  | none => .contextIpcServerError "Failure when starting context IPC server"

/-- What the call of a command makes of what it received; nothing when sending or receiving
failed. -/
def receive (call : ProtocolCall) :
    Option (NodeMessage T) → Except (ProtocolServiceError T) (T.Success call.expected)
  | none => .error .ipcError
  | some message =>
      if same : message.kind = call.expected then
        (same ▸ message.result).mapError (failed call)
      else .error (.unexpectedMessage message.kind)

/-! ## One reply -/

theorem replied_eq_expected (call : ProtocolCall) : call.replied = call.expected := by
  cases call <;> rfl

variable {runtime : Runtime T W} {world : Nat → W} {message : ProtocolMessage T}
  {reply : NodeMessage T}

/-- The reply to a command at a moment: the one to a shutdown, the one without an index, or the
result of the call. -/
inductive Reply (runtime : Runtime T W) (now : W) (message : ProtocolMessage T) :
    NodeMessage T → Prop where
  | shutdown (call : message.call = .shutdownCall) :
      Reply runtime now message ⟨.shutdownResult, .ok ()⟩
  | unavailable (reads : message.call.readsContext)
      (none : runtime.getContextIndex now = some false) : Reply runtime now message unavailable
  | result (call : message.call ≠ .shutdownCall) :
      Reply runtime now message ⟨message.call.replied, runtime.result now message⟩

theorem reply_of_process {now : W}
    (sent : (processProtocolCommands runtime now message).reply = some reply) :
    Reply runtime now message reply := by
  unfold processProtocolCommands at sent
  split at sent
  next call =>
    cases sent
    exact .shutdown call
  next call =>
    split at sent
    next reads =>
      split at sent
      next => cases sent
      next none =>
        cases sent
        exact .unavailable reads none
      next =>
        cases sent
        exact .result call
    next =>
      cases sent
      exact .result call

/-- The runner takes one step about a command. -/
theorem phase_eq {first phase : ProtocolMessage T} {early late : Nat}
    (works : Rpc.Works (runner runtime) world first early phase late) : phase = first := by
  induction works with
  | refl le => rfl
  | step before le step ih =>
      simp only [runner, processProtocolCommands] at step
      repeat (first | cases step | split at step)

theorem reply_of_answers {asked done : Nat}
    (answers : Rpc.Answers (runner runtime) world message asked reply done) :
    ∃ now, asked ≤ now ∧ now ≤ done ∧ Reply runtime (world now) message reply := by
  obtain ⟨phase, now, late, works, start, stop, sent⟩ := answers
  have same := phase_eq works
  subst same
  exact ⟨late, Nat.le_trans works.le start, stop, reply_of_process sent⟩

/-- A call accepts replies by their kind. -/
theorem unexpected_iff {call : ProtocolCall} {kind : NodeMessageKind} :
    receive call (some reply) = .error (.unexpectedMessage kind) ↔
      kind = reply.kind ∧ reply.kind ≠ call.expected := by
  rw [receive]
  split
  next same =>
    constructor
    · intro unexpected
      obtain ⟨kind', result⟩ := reply
      cases same
      cases result with
      | ok value => cases unexpected
      | error reason =>
          simp only [Except.mapError, failed] at unexpected
          split at unexpected <;> cases unexpected
    · rintro ⟨-, different⟩
      exact absurd same different
  next different =>
    constructor
    · intro unexpected
      cases unexpected
      exact ⟨rfl, different⟩
    · rintro ⟨rfl, -⟩
      rfl

/-- Its own reply a call takes for an unexpected one only when it asks by a prefix and there is no
index. -/
theorem Reply.unexpected {now : W} (reply' : Reply runtime now message reply)
    (different : reply.kind ≠ message.call.expected) :
    message.call ∈ [.contextGetKeyValuesByPrefix, .contextGetTreeByPrefix] ∧
      runtime.getContextIndex now = some false := by
  cases reply' with
  | shutdown shut =>
      rw [shut] at different
      exact absurd rfl different
  | unavailable reads none =>
      refine ⟨?_, none⟩
      cases call : message.call <;> rw [call] at reads different <;>
        first | exact absurd reads (by decide) | exact absurd rfl different | simp
  | result => exact absurd (replied_eq_expected _) different

/-! ## The calls on a controller -/

/-- The connection of a controller to its runner. -/
abbrev Controller (T : Payloads) : Type :=
  Rpc.Link (ProtocolMessage T) (NodeMessage T) (ProtocolMessage T)

variable {commands : Rpc.Channel (ProtocolMessage T)} {replies : Rpc.Channel (NodeMessage T)}
  {now : Nat} {controller : Controller T} {call : Rpc.Call (ProtocolMessage T) (NodeMessage T)}

/-- Over a connection that keeps the order of what is sent, and until one of its operations fails, a
call gets the reply to its own command, made at a moment of the call.  It is unexpected only about a
prefix, when there is no index. -/
theorem own_reply (ordered : commands.Ordered) (ordered' : replies.Ordered)
    (run : Rpc.Run (runner runtime) world commands replies now controller)
    (unfailed : controller.Unfailed) (returned : call ∈ controller.log)
    (took : call.reply = some reply) :
    ∃ now, call.asked ≤ now ∧ now ≤ call.done ∧ Reply runtime (world now) call.question reply ∧
      ∀ kind, receive call.question.call (some reply) = .error (.unexpectedMessage kind) →
        call.question.call ∈ [.contextGetKeyValuesByPrefix, .contextGetTreeByPrefix] ∧
          runtime.getContextIndex (world now) = some false := by
  have answers := Rpc.answered ordered ordered' run unfailed returned took
  obtain ⟨now, start, stop, reply'⟩ := reply_of_answers answers
  refine ⟨now, start, stop, reply', ?_⟩
  intro kind unexpected
  exact reply'.unexpected (unexpected_iff.mp unexpected).2

/-! A runner that gives its requests back, and two calls that apply blocks. -/

def numbers : Payloads := ⟨fun _ => Nat, fun _ => Nat, fun _ => Nat⟩

/-- The value of a reply is the number of the request. -/
def echoed : (call : ProtocolCall) → Nat → numbers.Success call.replied
  | .applyBlockCall, n => n
  | .assertEncodingForProtocolDataCall, n => n
  | .beginApplicationCall, n => n
  | .beginConstructionCall, n => n
  | .validateOperationCall, n => n
  | .protocolRpcCall, n => n
  | .helpersPreapplyOperationsCall, n => n
  | .helpersPreapplyBlockCall, n => n
  | .computePathCall, n => n
  | .changeRuntimeConfigurationCall, n => n
  | .initProtocolContextCall, n => n
  | .initProtocolContextIpcServer, n => n
  | .genesisResultDataCall, n => n
  | .jsonEncodeApplyBlockResultMetadata, n => n
  | .jsonEncodeApplyBlockOperationsMetadata, n => n
  | .contextGetKeyFromHistory, n => n
  | .contextGetKeyValuesByPrefix, n => n
  | .contextGetTreeByPrefix, n => n
  | .shutdownCall, _ => ()

def echo : Runtime numbers Unit :=
  ⟨fun _ message => .ok (echoed message.call message.request), fun _ => some false⟩

/-- A command to apply a block. -/
def applyBlock (block : Nat) : ProtocolMessage numbers := ⟨.applyBlockCall, block⟩

/-- The result of applying a block. -/
def applied (block : Nat) : NodeMessage numbers := ⟨.applyBlockResult, .ok block⟩

def firstApplied : Rpc.Call (ProtocolMessage numbers) (NodeMessage numbers) :=
  ⟨applyBlock 1, 0, 3, some (applied 1)⟩

def secondApplied : Rpc.Call (ProtocolMessage numbers) (NodeMessage numbers) :=
  ⟨applyBlock 2, 4, 7, some (applied 2)⟩

/-- The controller behind both calls. -/
def twoApplied : Controller numbers :=
  ⟨[.sent (applyBlock 1), .received (applyBlock 1), .sent (applyBlock 2),
      .received (applyBlock 2)],
    [.sent (applied 1), .received (applied 1), .sent (applied 2), .received (applied 2)],
    none, false, none, [firstApplied, secondApplied]⟩

theorem run_twoApplied :
    Rpc.Run (runner echo) (fun _ => ()) .inOrder .inOrder 8 twoApplied := by
  have sent := (Rpc.Run.new : Rpc.Run (runner echo) (fun _ => ()) .inOrder .inOrder 0 .new).step
    (.ask (applyBlock 1)) rfl ⟨_, rfl⟩ ⟨_, rfl⟩
  have taken := ((sent.step (.receive (applyBlock 1)) rfl ⟨_, rfl⟩ ⟨_, rfl⟩).step .work rfl ⟨_, rfl⟩
    ⟨_, rfl⟩).step (.take (applied 1)) rfl ⟨_, rfl⟩ ⟨_, rfl⟩
  have sent' := taken.step (.ask (applyBlock 2)) rfl ⟨_, rfl⟩ ⟨_, rfl⟩
  exact ((sent'.step (.receive (applyBlock 2)) rfl ⟨_, rfl⟩ ⟨_, rfl⟩).step .work rfl ⟨_, rfl⟩
    ⟨_, rfl⟩).step (.take (applied 2)) rfl ⟨_, rfl⟩ ⟨_, rfl⟩

theorem own_reply_applied : ∃ now, 4 ≤ now ∧ now ≤ 7 ∧ Reply echo () (applyBlock 2) (applied 2) ∧
    ∀ kind, receive .applyBlockCall (some (applied 2)) = .error (.unexpectedMessage kind) →
      ProtocolCall.applyBlockCall ∈
          [ProtocolCall.contextGetKeyValuesByPrefix, .contextGetTreeByPrefix] ∧
        echo.getContextIndex () = some false :=
  @own_reply _ _ _ _ _ _ _ _ _ secondApplied Rpc.Channel.ordered_inOrder Rpc.Channel.ordered_inOrder
    run_twoApplied (by simp [Rpc.Link.Unfailed, twoApplied]) (.tail _ (.head _)) rfl

end Wrapper

end NodeFuzzer
