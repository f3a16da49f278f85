import NodeFuzzer.Context.InMemory
import NodeFuzzer.Context.ReadonlyIpc
import NodeFuzzer.Library.Rpc

/-!
# Reading the context of another process

`IpcContextClient` and `IpcContextServer` of `kv_store/readonly_ipc.rs`.  The process that writes
the context answers questions about its store, on one thread for each connection.  The store
changes meanwhile, and a question is answered in two steps: the index is fetched, then it is read.

The client accepts a response by its kind alone.  What it returns is therefore only right as far as
the connection brings it the response to its own request.  The connection is not part of this: it is
given by what it may do, and is asked to keep the order of what is sent until an operation fails.
-/

namespace NodeFuzzer

namespace ReadonlyIpc

/-! ## Messages -/

/-- `ContextRequest`. -/
inductive ContextRequest where
  | getContextHashId (contextHash : ContextHash)
  | getHash (hashId : HashId)
  | getValue (hash : HashId)
  | containsEntry (hash : HashId)
  | shutdownCall
deriving DecidableEq

/-- `ContextResponse`. -/
inductive ContextResponse where
  | getContextHashResponse (result : Except String (Option EntryHash))
  | getContextHashIdResponse (result : Except String (Option HashId))
  | getValueResponse (result : Except String (Option Serialized))
  | containsEntryResponse (result : Except String Bool)
  | shutdownResult

/-- The name of the variant, by which an unexpected message is reported. -/
def ContextResponse.into : ContextResponse → String
  | .getContextHashResponse _ => "GetContextHashResponse"
  | .getContextHashIdResponse _ => "GetContextHashIdResponse"
  | .getValueResponse _ => "GetValueResponse"
  | .containsEntryResponse _ => "ContainsEntryResponse"
  | .shutdownResult => "ShutdownResult"

/-- `ContextError` of the client. -/
inductive ContextError where
  | getValueError (reason : String)
  | containsEntryError (reason : String)
  | getContextHashIdError (reason : String)
  | getContextHashError (reason : String)

/-- `ContextServiceError`, as far as the calls of the client return it. -/
inductive ContextServiceError where
  | ipcError
  | contextError (reason : ContextError)
  | unexpectedMessage (message : String)

/-! ## The server -/

/-- How errors are printed. -/
structure DebugText where
  dbError : DBError → String
  merkleError : MerkleError → String

/-- What the writing process holds: `TEZEDGE_CONTEXT_REPOSITORY`, nothing when its lock is
poisoned, and the stores of the repositories it may name. -/
structure Writer (ρ S : Type) where
  repository : Option (Option ρ)
  store : ρ → S

/-- A request is new, or its index was fetched. -/
inductive Phase (ρ : Type) where
  | received (cmd : ContextRequest)
  | indexed (cmd : ContextRequest) (index : ρ)

variable {ρ S : Type}

/-- `format!("Context error: {:?}", err)`. -/
def contextErrorText (text : String) : String := "Context error: " ++ text

/-- The response without an index.  One to `ContainsEntry` has the wrong kind. -/
def unavailable : ContextRequest → ContextResponse
  | .getValue _ => .getValueResponse (.error "Context index unavailable")
  | .containsEntry _ => .getValueResponse (.error "Context index unavailable")
  | .shutdownCall => .shutdownResult
  | .getContextHashId _ => .getContextHashIdResponse (.error "Context index unavailable")
  | .getHash _ => .getContextHashResponse (.error "Context index unavailable")

variable [KeyValueStoreBackend S]

/-- The response of an index: `find_entry_bytes`, `contains`, `get_context_hash_id` and
`get_hash`. -/
def answer (debug : DebugText) : ContextRequest → S → ContextResponse
  | .getValue hash, store =>
      .getValueResponse ((KeyValueStoreBackend.getValue hash store).mapError
        (contextErrorText ∘ debug.dbError))
  | .containsEntry hash, store =>
      .containsEntryResponse ((KeyValueStoreBackend.contains hash store).mapError
        (contextErrorText ∘ debug.dbError))
  | .shutdownCall, _ => .shutdownResult
  | .getContextHashId contextHash, store =>
      .getContextHashIdResponse ((KeyValueStoreBackend.getContextHash contextHash store).mapError
        (contextErrorText ∘ debug.merkleError ∘ .dbError))
  | .getHash hashId, store =>
      .getContextHashResponse ((KeyValueStoreBackend.getHash hashId store).mapError
        (contextErrorText ∘ debug.dbError))

/-- `process_context_requests`, one request of its loop. -/
def processContextRequests (debug : DebugText) (writer : Writer ρ S) :
    Phase ρ → Rpc.Next (Phase ρ) ContextResponse
  | .received .shutdownCall => .stops (some .shutdownResult)
  | .received cmd =>
      match writer.repository with
      -- The error of `get_context_index` ends the loop.
      | none => .stops none
      | some none => .replies (unavailable cmd)
      | some (some index) => .works (.indexed cmd index)
  | .indexed cmd index => .replies (answer debug cmd (writer.store index))

/-- `IpcContextServer`. -/
def server (debug : DebugText) :
    Rpc.Server (Writer ρ S) ContextRequest ContextResponse (Phase ρ) :=
  ⟨.received, processContextRequests debug⟩

/-! ## The client -/

namespace ContextRequest

/-- What the call of a request returns. -/
def Value : ContextRequest → Type
  | .getContextHashId _ => Option HashId
  | .getHash _ => Option EntryHash
  | .getValue _ => Option Serialized
  | .containsEntry _ => Bool
  | .shutdownCall => Unit

/-- What is in a response of the kind that is expected. -/
def accept : (cmd : ContextRequest) → ContextResponse → Option (Except ContextError cmd.Value)
  | .getContextHashId _, .getContextHashIdResponse result =>
      some (result.mapError .getContextHashIdError)
  | .getHash _, .getContextHashResponse result => some (result.mapError .getContextHashError)
  | .getValue _, .getValueResponse result => some (result.mapError .getValueError)
  | .containsEntry _, .containsEntryResponse result => some (result.mapError .containsEntryError)
  | .shutdownCall, .shutdownResult => some (.ok ())
  | _, _ => none

/-- What a call makes of what it received; nothing when sending or receiving failed. -/
def receive (cmd : ContextRequest) : Option ContextResponse → Except ContextServiceError cmd.Value
  | none => .error .ipcError
  | some message =>
      match cmd.accept message with
      | some result => result.mapError .contextError
      | none => .error (.unexpectedMessage message.into)

/-- What a store says about a request. -/
def ask : (cmd : ContextRequest) → S → Except DBError cmd.Value
  | .getContextHashId contextHash, store => KeyValueStoreBackend.getContextHash contextHash store
  | .getHash hashId, store => KeyValueStoreBackend.getHash hashId store
  | .getValue hash, store => KeyValueStoreBackend.getValue hash store
  | .containsEntry hash, store => KeyValueStoreBackend.contains hash store
  | .shutdownCall, _ => .ok ()

end ContextRequest

namespace Client

/-- `IpcContextClient::get_value`, from the response on. -/
def getValue (hashId : HashId) :
    Option ContextResponse → Except ContextServiceError (Option Serialized) :=
  (ContextRequest.getValue hashId).receive

/-- `contains_entry`. -/
def containsEntry (hashId : HashId) : Option ContextResponse → Except ContextServiceError Bool :=
  (ContextRequest.containsEntry hashId).receive

/-- `get_context_hash_id`. -/
def getContextHashId (contextHash : ContextHash) :
    Option ContextResponse → Except ContextServiceError (Option HashId) :=
  (ContextRequest.getContextHashId contextHash).receive

/-- `get_hash`. -/
def getHash (hashId : HashId) :
    Option ContextResponse → Except ContextServiceError (Option EntryHash) :=
  (ContextRequest.getHash hashId).receive

end Client

/-! ## What is accepted -/

variable {debug : DebugText} {cmd : ContextRequest} {store : S}

theorem of_mapError_ok {ε δ α : Type} {result : Except ε α} {f : ε → δ} {value : α}
    (ok : result.mapError f = .ok value) : result = .ok value := by
  cases result with
  | ok found =>
      cases ok
      rfl
  | error err => cases ok

/-- A value that is accepted is what the store said. -/
theorem ask_of_receive {value : cmd.Value}
    (ok : cmd.receive (some (answer debug cmd store)) = .ok value) :
    cmd.ask store = .ok value := by
  cases cmd with
  | getContextHashId | getHash | getValue | containsEntry =>
      exact of_mapError_ok (of_mapError_ok (of_mapError_ok ok))
  | shutdownCall => rfl

omit [KeyValueStoreBackend S] in
/-- Without an index no value is accepted. -/
theorem receive_unavailable (query : cmd ≠ .shutdownCall) {value : cmd.Value} :
    cmd.receive (some (unavailable cmd)) ≠ .ok value := by
  intro ok
  cases cmd with
  | shutdownCall => exact query rfl
  | getContextHashId | getHash | getValue | containsEntry => cases ok

/-! ## What is observed -/

/-- Between two moments the index was there, and the store it names was as said afterwards. -/
def Observed (world : Nat → Writer ρ S) (asked done : Nat) (holds : S → Prop) : Prop :=
  ∃ index early late, asked ≤ early ∧ early ≤ late ∧ late ≤ done ∧
    (world early).repository = some (some index) ∧ holds ((world late).store index)

omit [KeyValueStoreBackend S] in
theorem Observed.imp {world : Nat → Writer ρ S} {asked done : Nat} {holds holds' : S → Prop}
    (observed : Observed world asked done holds) (imp : ∀ store, holds store → holds' store) :
    Observed world asked done holds' := by
  obtain ⟨index, early, late, start, order, stop, found, seen⟩ := observed
  exact ⟨index, early, late, start, order, stop, found, imp _ seen⟩

variable {world : Nat → Writer ρ S}

/-- A new request goes on with the index that is there. -/
theorem works_received {writer : Writer ρ S} {next : Phase ρ}
    (works : processContextRequests debug writer (.received cmd) = .works next) :
    ∃ index, writer.repository = some (some index) ∧ next = .indexed cmd index := by
  cases found : writer.repository with
  | none => cases cmd <;> simp [processContextRequests, found] at works
  | some repository =>
      cases repository with
      | none => cases cmd <;> simp [processContextRequests, found] at works
      | some index =>
          refine ⟨index, rfl, ?_⟩
          cases cmd <;> simp [processContextRequests, found] at works <;> exact works.symm

/-- The response to a new request is the one without an index. -/
theorem reply_received {writer : Writer ρ S} {reply : ContextResponse}
    (sent : (processContextRequests debug writer (.received cmd)).reply = some reply) :
    reply = unavailable cmd ∧ (cmd = .shutdownCall ∨ writer.repository = some none) := by
  cases found : writer.repository with
  | none =>
      cases cmd <;> simp [processContextRequests, found, Rpc.Next.reply] at sent
      exact ⟨sent.symm, .inl rfl⟩
  | some repository =>
      cases repository with
      | none =>
          refine ⟨?_, .inr rfl⟩
          cases cmd <;> simp [processContextRequests, found, Rpc.Next.reply] at sent <;>
            exact sent.symm
      | some index =>
          cases cmd <;> simp [processContextRequests, found, Rpc.Next.reply] at sent
          exact ⟨sent.symm, .inl rfl⟩

/-- How far the server is with a request. -/
theorem works_phase {first phase : Phase ρ} {asked now : Nat} (start : first = .received cmd)
    (works : Rpc.Works (server debug) world first asked phase now) :
    phase = .received cmd ∨ ∃ index early, asked ≤ early ∧ early ≤ now ∧
      (world early).repository = some (some index) ∧ phase = .indexed cmd index := by
  induction works with
  | refl le => exact .inl start
  | step before le step ih =>
      rcases ih with rfl | ⟨index, early, -, -, -, rfl⟩
      · obtain ⟨index, found, rfl⟩ := works_received step
        exact .inr ⟨index, _, Nat.le_trans before.le le, Nat.le_refl _, found, rfl⟩
      · cases step

/-- A response is that of a store that was there, or the one without an index. -/
theorem answers_cases {asked done : Nat} {reply : ContextResponse}
    (answers : Rpc.Answers (server debug) world cmd asked reply done) :
    (reply = unavailable cmd ∧ (cmd = .shutdownCall ∨
      ∃ now, asked ≤ now ∧ now ≤ done ∧ (world now).repository = some none)) ∨
      Observed world asked done fun store => reply = answer debug cmd store := by
  obtain ⟨phase, now, late, works, start, stop, sent⟩ := answers
  rcases works_phase rfl works with rfl | ⟨index, early, asked', order, found, rfl⟩
  · left
    obtain ⟨same, without⟩ := reply_received sent
    refine ⟨same, without.imp_right fun found => ?_⟩
    exact ⟨late, Nat.le_trans works.le start, stop, found⟩
  · right
    cases sent
    exact ⟨index, early, late, asked', Nat.le_trans order start, stop, found, rfl⟩

/-! ## Runs of a connection -/

/-- A connection of a reader to the writer. -/
abbrev Connection (ρ : Type) : Type := Rpc.Link ContextRequest ContextResponse (Phase ρ)

variable {requests : Rpc.Channel ContextRequest} {responses : Rpc.Channel ContextResponse}
  {now : Nat} {connection : Connection ρ} {call : Rpc.Call ContextRequest ContextResponse}

theorem took_of_receive {cmd : ContextRequest} {reply : Option ContextResponse} {value : cmd.Value}
    (ok : cmd.receive reply = .ok value) : ∃ message, reply = some message := by
  cases reply with
  | none => cases ok
  | some message => exact ⟨message, rfl⟩

/-- Over a connection that keeps the order of what is sent, and until one of its operations fails, a
call that returns a value returns what the store said at a moment of the call. -/
theorem value_during_call (ordered : requests.Ordered) (ordered' : responses.Ordered)
    (run : Rpc.Run (server debug) world requests responses now connection)
    (unfailed : connection.Unfailed) (returned : call ∈ connection.log)
    (query : call.question ≠ .shutdownCall) {value : call.question.Value}
    (ok : call.question.receive call.reply = .ok value) :
    Observed world call.asked call.done fun store => call.question.ask store = .ok value := by
  obtain ⟨message, took⟩ := took_of_receive ok
  rw [took] at ok
  rcases answers_cases (Rpc.answered ordered ordered' run unfailed returned took) with
    ⟨rfl, -⟩ | observed
  · exact absurd ok (receive_unavailable query)
  · refine observed.imp ?_
    rintro store rfl
    exact ask_of_receive ok

/-! Two calls, for the values of two ids. -/

section

local instance ipcDigest : Digest := sampleDigest

theorem oneId_lt : 1 < 2 ^ 64 := by decide

def oneId : HashId := ⟨1, Nat.one_pos, oneId_lt⟩

theorem twoId_lt : 2 < 2 ^ 64 := by decide

def twoId : HashId := ⟨2, Nat.two_pos, twoId_lt⟩

def oneValue : System :=
  { System.new true [] with store := (InMemory.new true).writeBatch [(oneId, .blob [10])] }

def twoValues : System :=
  { System.new true [] with
    store := (InMemory.new true).writeBatch [(oneId, .blob [10]), (twoId, .blob [20])] }

/-- A writer that puts the second value at the third moment. -/
def growingWriter : Nat → Writer Unit System := fun now =>
  ⟨some (some ()), fun _ => if now < 3 then oneValue else twoValues⟩

def emptyText : DebugText := ⟨fun _ => "", fun _ => ""⟩

def firstCall : Rpc.Call ContextRequest ContextResponse :=
  ⟨.getValue oneId, 0, 4, some (.getValueResponse (.ok (some (.blob [10]))))⟩

def secondCall : Rpc.Call ContextRequest ContextResponse :=
  ⟨.getValue twoId, 5, 9, some (.getValueResponse (.ok (some (.blob [20]))))⟩

/-- The connection behind both calls. -/
def twoCalls : Connection Unit :=
  ⟨[.sent firstCall.question, .received firstCall.question, .sent secondCall.question,
      .received secondCall.question],
    [.sent (.getValueResponse (.ok (some (.blob [10])))),
      .received (.getValueResponse (.ok (some (.blob [10])))),
      .sent (.getValueResponse (.ok (some (.blob [20])))),
      .received (.getValueResponse (.ok (some (.blob [20]))))],
    none, false, none, [firstCall, secondCall]⟩

/-- Both requests are received, the index is fetched and read, and the response is taken. -/
theorem run_twoCalls :
    Rpc.Run (server emptyText) growingWriter .inOrder .inOrder 10 twoCalls := by
  have asked := (Rpc.Run.new : Rpc.Run (server emptyText) growingWriter .inOrder .inOrder 0 .new).step
    (.ask firstCall.question) rfl ⟨_, rfl⟩ ⟨_, rfl⟩
  have read := ((asked.step (.receive firstCall.question) rfl ⟨_, rfl⟩ ⟨_, rfl⟩).step .work rfl
    ⟨_, rfl⟩ ⟨_, rfl⟩).step .work rfl ⟨_, rfl⟩ ⟨_, rfl⟩
  have taken := read.step (.take (.getValueResponse (.ok (some (.blob [10]))))) rfl ⟨_, rfl⟩ ⟨_, rfl⟩
  have asked' := taken.step (.ask secondCall.question) rfl ⟨_, rfl⟩ ⟨_, rfl⟩
  have read' := ((asked'.step (.receive secondCall.question) rfl ⟨_, rfl⟩ ⟨_, rfl⟩).step .work rfl
    ⟨_, rfl⟩ ⟨_, rfl⟩).step .work rfl ⟨_, rfl⟩ ⟨_, rfl⟩
  exact read'.step (.take (.getValueResponse (.ok (some (.blob [20]))))) rfl ⟨_, rfl⟩ ⟨_, rfl⟩

theorem unfailed_twoCalls : twoCalls.Unfailed := by simp [Rpc.Link.Unfailed, twoCalls]

theorem value_during_call_second :
    Observed growingWriter secondCall.asked secondCall.done fun store =>
      secondCall.question.ask store = .ok (some (Serialized.blob [20])) :=
  value_during_call Rpc.Channel.ordered_inOrder Rpc.Channel.ordered_inOrder run_twoCalls
    unfailed_twoCalls (.tail _ (.head _)) (by decide) rfl

end

/-! ## The client as a function

The read-only backend asks its client as if the answers were functions.  They are, as long as the
store says the same about a request at every moment of a call. -/

/-- What a store answers a client that tells errors apart no more. -/
def clientOf (store : S) : IpcContextClient where
  getHash := fun id => (KeyValueStoreBackend.getHash id store).mapError fun _ => .ipcAccessError
  getValue := fun id => (KeyValueStoreBackend.getValue id store).mapError fun _ => .ipcAccessError
  containsEntry := fun id =>
    (KeyValueStoreBackend.contains id store).mapError fun _ => .ipcAccessError
  getContextHashId := fun hash =>
    (KeyValueStoreBackend.getContextHash hash store).mapError fun _ => .ipcAccessError

/-- The answer of a client to a request. -/
def ContextRequest.askClient (client : IpcContextClient) :
    (cmd : ContextRequest) → Except DBError cmd.Value
  | .getContextHashId contextHash => client.getContextHashId contextHash
  | .getHash hashId => client.getHash hashId
  | .getValue hash => client.getValue hash
  | .containsEntry hash => client.containsEntry hash
  | .shutdownCall => .ok ()

/-- An error that is forgotten may be translated before. -/
theorem mapError_const {ε δ γ α : Type} (result : Except ε α) (f : ε → δ) (lost : γ) :
    (result.mapError f).mapError (fun _ => lost) = result.mapError fun _ => lost := by
  cases result <;> rfl

/-- The response of a store is received as its answer. -/
theorem receive_answer :
    ((cmd.receive (some (answer debug cmd store))).mapError fun _ => DBError.ipcAccessError) =
      cmd.askClient (clientOf store) := by
  -- What the server, the client and the backend add to an error is forgotten again.
  have forgotten : ∀ {α : Type} (result : Except DBError α) (f : DBError → String)
      (g : String → ContextError), (((result.mapError f).mapError g).mapError
        ContextServiceError.contextError).mapError (fun _ => DBError.ipcAccessError) =
          result.mapError fun _ => DBError.ipcAccessError := by
    intro α result f g
    rw [mapError_const, mapError_const, mapError_const]
  cases cmd with
  | getContextHashId => exact forgotten _ _ _
  | getHash => exact forgotten _ _ _
  | getValue => exact forgotten _ _ _
  | containsEntry => exact forgotten _ _ _
  | shutdownCall => rfl

theorem askClient_congr {store' : S} (same : cmd.ask store = cmd.ask store') :
    cmd.askClient (clientOf store) = cmd.askClient (clientOf store') := by
  have forgotten := congrArg (Except.mapError fun _ => DBError.ipcAccessError) same
  cases cmd with
  | getContextHashId => exact forgotten
  | getHash => exact forgotten
  | getValue => exact forgotten
  | containsEntry => exact forgotten
  | shutdownCall => rfl

/-- A call during which the writer has its index, and its store says the same about the request
all along, returns the answer of the client, as long as no operation on the connection has
failed. -/
theorem receive_eq_client (ordered : requests.Ordered) (ordered' : responses.Ordered)
    (run : Rpc.Run (server debug) world requests responses now connection)
    (unfailed : connection.Unfailed) (returned : call ∈ connection.log)
    (took : call.reply ≠ none) (query : call.question ≠ .shutdownCall)
    (steady : ∀ now, call.asked ≤ now → now ≤ call.done →
      (∃ index, (world now).repository = some (some index)) ∧
        ∀ index, call.question.ask ((world now).store index) = call.question.ask store) :
    ((call.question.receive call.reply).mapError fun _ => DBError.ipcAccessError) =
      call.question.askClient (clientOf store) := by
  obtain ⟨message, took⟩ := Option.ne_none_iff_exists'.mp took
  rw [took]
  rcases answers_cases (Rpc.answered ordered ordered' run unfailed returned took) with
    ⟨-, without⟩ | observed
  · rcases without with shutdown | ⟨now, start, stop, none⟩
    · exact absurd shutdown query
    · obtain ⟨⟨index, found⟩, -⟩ := steady now start stop
      rw [none] at found
      cases found
  · obtain ⟨index, early, late, start, order, stop, -, rfl⟩ := observed
    rw [receive_answer]
    exact askClient_congr ((steady late (Nat.le_trans start order) stop).2 index)

section

attribute [local instance] ipcDigest

/-- The second value is put while the first one is asked for. -/
theorem receive_eq_client_first :
    ((Client.getValue oneId firstCall.reply).mapError fun _ => DBError.ipcAccessError) =
      (clientOf oneValue).getValue oneId := by
  refine receive_eq_client Rpc.Channel.ordered_inOrder Rpc.Channel.ordered_inOrder run_twoCalls
    unfailed_twoCalls (.head _) (by simp [firstCall]) (by decide) ?_
  intro now _ _
  refine ⟨⟨(), rfl⟩, fun _ => ?_⟩
  rcases Nat.lt_or_ge now 3 with before | behind
  · rw [growingWriter, if_pos before]
  · rw [growingWriter, if_neg (Nat.not_lt.mpr behind)]
    rfl

end

end ReadonlyIpc

end NodeFuzzer
