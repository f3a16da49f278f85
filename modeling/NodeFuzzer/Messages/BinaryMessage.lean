import NodeFuzzer.Messages.Peer

/-!
# Binary messages

`binary_message.rs` writes a message through its encoding and reads one from
bytes that must be used up.  `PeerMessageResponse` is what goes over the wire: a
message behind its size, which is bounded by `MESSAGE_MAX_SIZE`.
-/

namespace NodeFuzzer

open Nom

/-! ## Reading complete input -/

/-- `BinaryReaderError`.  The text of an error is kept as the error it is made of. -/
inductive BinaryReaderError where
  | unknownTag (tag : String)
  | error (e : DecodeError)
  /-- Not an error of the source: `finish` panicked. -/
  | panicked

/-- `map_nom_error`, with `get_unknown_tag`. -/
def mapNomError (e : DecodeError) : BinaryReaderError :=
  match e.kind with
  | .unknownTag tag => .unknownTag tag
  | _ => .error e

/-- `all_consuming_complete_input`. -/
def allConsumingCompleteInput {α : Type} (parser : Reader α) (input : Bytes) :
    Except BinaryReaderError α :=
  match allConsuming (complete parser) input with
  | .done _ output => .ok output
  | .error e => .error (mapNomError e)
  | .failure e => .error (mapNomError e)
  -- `finish` panics here; `complete` leaves no such result.
  | .incomplete => .error .panicked

theorem allConsumingCompleteInput_done {α : Type} {parser : Reader α} {input : Bytes} {a : α}
    (h : parser input = .done [] a) : allConsumingCompleteInput parser input = .ok a := by
  have hc : complete parser input = .done [] a := by
    simp [complete, h]
  rw [allConsumingCompleteInput, allConsuming_done hc]

/-- `complete_input`. -/
def completeInput {α : Type} (parser : Reader α) (input : Bytes) : Except BinaryReaderError α :=
  match complete parser input with
  | .done _ output => .ok output
  | .error e => .error (mapNomError e)
  | .failure e => .error (mapNomError e)
  -- `finish` panics here; `complete` leaves no such result.
  | .incomplete => .error .panicked

theorem completeInput_eq_ok {α : Type} {parser : Reader α} {input : Bytes} {a : α}
    (h : completeInput parser input = .ok a) : ∃ rest, parser input = .done rest a := by
  rw [completeInput, complete] at h
  cases hp : parser input with
  | done rest b =>
      simp only [hp] at h
      exact ⟨rest, by rw [Except.ok.inj h]⟩
  | error e => simp [hp] at h
  | failure e => simp [hp] at h
  | incomplete => simp [hp] at h

/-! ## Peer messages -/

/-- `PeerMessageResponse`. -/
structure PeerMessageResponse where
  message : PeerMessage
deriving DecidableEq

namespace PeerMessageResponse

/-- The content of the dynamic block. -/
def content : Schema :=
  .struct "PeerMessageResponse" <| .cons "message" PeerMessage.schema .nil

/-- The derived schema. -/
def schema : Schema := .dynamic (some MESSAGE_MAX_SIZE) content

/-- The fields, as the schema has them. -/
def toVal (r : PeerMessageResponse) : schema.Val := (r.message.toVal, ())

/-- The structure of the fields. -/
def ofVal (v : schema.Val) : PeerMessageResponse :=
  match (v : PeerMessage.schema.Val × Unit) with
  | (message, _) => ⟨.ofVal message⟩

/-- `BinaryWrite::as_bytes`. -/
def asBytes (r : PeerMessageResponse) : Except BinaryWriterError Bytes :=
  NodeFuzzer.asBytes schema r.toVal

/-- `NomReader::nom_read`. -/
def nomRead : Reader PeerMessageResponse := map (generateNomRead schema) ofVal

/-- `BinaryRead::from_bytes`. -/
def fromBytes (b : Bytes) : Except BinaryReaderError PeerMessageResponse :=
  allConsumingCompleteInput nomRead b

theorem ofVal_toVal (r : PeerMessageResponse) : ofVal r.toVal = r :=
  congrArg PeerMessageResponse.mk r.message.ofVal_toVal

theorem content_wf : content.Wf := Schema.wf_of_check _ (by decide +kernel)

end PeerMessageResponse

/-- Every Merkle path hash of the message has 32 bytes. -/
def PeerMessage.HashSized : PeerMessage → Prop
  | .operationsForBlocks m => NodeFuzzer.HashSized m.operationHashesPath
  | _ => True

/-- A value of a schema without paths satisfies every predicate on paths. -/
theorem all_hashSized {s : Schema} (h : s.NoPath) (v : s.Val) :
    s.All (fun _ => True) HashSized v := all_of_noPath s h (all_true s v)

theorem PeerMessage.all_of_hashSized (m : PeerMessage) (h : m.HashSized) :
    PeerMessage.schema.All (fun _ => True) NodeFuzzer.HashSized m.toVal := by
  -- Only the last variant has a path; the schemas of the others have none.
  cases m with
  | disconnect => trivial
  | bootstrap => trivial
  | operationsForBlocks m =>
      refine ⟨all_hashSized ?_ _, h, all_hashSized ?_ _, trivial⟩
      · exact ⟨trivial, trivial, trivial⟩
      · exact ⟨trivial, trivial, trivial⟩
  | advertise m => exact all_hashSized (s := AdvertiseMessage.schema) (by repeat' constructor) _
  | swapRequest m => exact all_hashSized (s := SwapMessage.schema) (by repeat' constructor) _
  | swapAck m => exact all_hashSized (s := SwapMessage.schema) (by repeat' constructor) _
  | getCurrentBranch m => exact all_hashSized (s := GetCurrentBranchMessage.schema) (by repeat' constructor) _
  | currentBranch m => exact all_hashSized (s := CurrentBranchMessage.schema) (by repeat' constructor) _
  | deactivate m => exact all_hashSized (s := DeactivateMessage.schema) (by repeat' constructor) _
  | getCurrentHead m => exact all_hashSized (s := GetCurrentHeadMessage.schema) (by repeat' constructor) _
  | currentHead m => exact all_hashSized (s := CurrentHeadMessage.schema) (by repeat' constructor) _
  | getBlockHeaders m => exact all_hashSized (s := GetBlockHeadersMessage.schema) (by repeat' constructor) _
  | blockHeader m => exact all_hashSized (s := BlockHeaderMessage.schema) (by repeat' constructor) _
  | getOperations m => exact all_hashSized (s := GetOperationsMessage.schema) (by repeat' constructor) _
  | operation m => exact all_hashSized (s := OperationMessage.schema) (by repeat' constructor) _
  | getProtocols m => exact all_hashSized (s := GetProtocolsMessage.schema) (by repeat' constructor) _
  | protocol m => exact all_hashSized (s := ProtocolMessage.schema) (by repeat' constructor) _
  | getOperationsForBlocks m => exact all_hashSized (s := GetOperationsForBlocksMessage.schema) (by repeat' constructor) _

namespace PeerMessageResponse

/-- The bytes of a message are its size and the message, within the maximal size. -/
theorem asBytes_header {r : PeerMessageResponse} {b : Bytes} (hb : r.asBytes = .ok b) :
    b.take 4 = toBe 4 (b.length - 4) ∧ b.length - 4 ≤ MESSAGE_MAX_SIZE := by
  obtain ⟨b', hb', _, _, hmax⟩ := encodes_dynamic (asBytes_iff.mp hb)
  have hlen : b.length - 4 = b'.length := by
    rw [hb', List.length_append, toBe_length, Nat.add_sub_cancel_left]
  refine ⟨?_, ?_⟩
  · rw [hlen, hb', List.take_left' (toBe_length 4 _)]
  · rw [hlen]
    exact hmax _ rfl

/-- A message that can be written is read back. -/
theorem fromBytes_of_asBytes {m : PeerMessage} (hm : m.HashSized) {b : Bytes}
    (hb : (PeerMessageResponse.mk m).asBytes = .ok b) : fromBytes b = .ok ⟨m⟩ := by
  have henc : Encodes schema (PeerMessageResponse.mk m).toVal b := asBytes_iff.mp hb
  obtain ⟨b', hb', hlt, henc', hmax⟩ := encodes_dynamic henc
  have hall : content.All ShortString NodeFuzzer.HashSized (PeerMessageResponse.mk m).toVal :=
    shortStrings_of_length content content_wf henc' hlt ⟨m.all_of_hashSized hm, trivial⟩
  have hread : generateNomRead schema b = .done [] (PeerMessageResponse.mk m).toVal := by
    have h := generateNomRead_append schema content_wf henc hall [] (fun _ => rfl)
    rwa [List.append_nil] at h
  refine allConsumingCompleteInput_done ?_
  rw [nomRead, map, hread, andThen_done, ofVal_toVal]

end PeerMessageResponse

/-- A message that can be written is read back, and the bytes are its size and the
message, within the maximal size. -/
theorem PeerMessageResponse.fromBytes_asBytes (m : PeerMessage) (hm : m.HashSized) {b : Bytes}
    (hb : (PeerMessageResponse.mk m).asBytes = .ok b) :
    PeerMessageResponse.fromBytes b = .ok ⟨m⟩ ∧ b.take 4 = toBe 4 (b.length - 4) ∧
      b.length - 4 ≤ MESSAGE_MAX_SIZE :=
  ⟨fromBytes_of_asBytes hm hb, asBytes_header hb⟩

/-- A message with a path of one step. -/
def sampleOperationsForBlocks : PeerMessage :=
  .operationsForBlocks ⟨⟨List.replicate 32 1, 2⟩, [.right (List.replicate 32 7)], []⟩

/-- The bytes of `sampleOperationsForBlocks` behind its size. -/
def sampleOperationsForBlocksBytes : Bytes :=
  [0, 0, 0, 69, 0, 0x61] ++ List.replicate 32 1 ++ [2, 0x0F] ++ List.replicate 32 7 ++ [0]

theorem PeerMessageResponse.fromBytes_asBytes_sample :
    PeerMessageResponse.fromBytes sampleOperationsForBlocksBytes = .ok ⟨sampleOperationsForBlocks⟩ ∧
      sampleOperationsForBlocksBytes.take 4 = toBe 4 (sampleOperationsForBlocksBytes.length - 4) ∧
      sampleOperationsForBlocksBytes.length - 4 ≤ MESSAGE_MAX_SIZE :=
  PeerMessageResponse.fromBytes_asBytes sampleOperationsForBlocks
    (by intro item hitem; rw [List.mem_singleton.mp hitem]; rfl) rfl

end NodeFuzzer
