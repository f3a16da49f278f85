import NodeFuzzer.Encoding.Canonical
import NodeFuzzer.Messages.Handshake
import NodeFuzzer.Messages.Size

/-!
# What is accepted

`from_bytes` accepts exactly the bytes `as_bytes` has for a message, and returns this message,
for every message that goes over a connection.  So a message that is passed on as it was
read has the bytes it came with, and no other bytes are read as the same message.
-/

namespace NodeFuzzer

open Nom

theorem complete_eq_done {α : Type} {parser : Reader α} {input rest : Bytes} {a : α} :
    complete parser input = .done rest a ↔ parser input = .done rest a := by
  rw [complete]
  cases parser input <;> simp

theorem allConsuming_eq_done {α : Type} {parser : Reader α} {input rest : Bytes} {a : α} :
    allConsuming parser input = .done rest a ↔ parser input = .done [] a ∧ rest = [] := by
  rw [allConsuming]
  cases parser input with
  | done rest' a' =>
      by_cases h : rest'.length = 0
      · obtain rfl := List.length_eq_zero_iff.mp h
        simp [and_comm, eq_comm]
      · have hne : rest' ≠ [] := fun hnil => h (by rw [hnil]; rfl)
        simp [hne]
  | error e => simp [IResult.andThen]
  | failure e => simp [IResult.andThen]
  | incomplete => simp [IResult.andThen]

theorem allConsumingCompleteInput_eq_ok {α : Type} {parser : Reader α} {input : Bytes} {a : α} :
    allConsumingCompleteInput parser input = .ok a ↔ parser input = .done [] a := by
  constructor
  · intro h
    rw [allConsumingCompleteInput] at h
    split at h
    next rest output hread =>
      cases h
      exact complete_eq_done.mp (allConsuming_eq_done.mp hread).1
    next => cases h
    next => cases h
    next => cases h
  · exact allConsumingCompleteInput_done

section

variable {M : Type} {s : Schema} {toVal : M → s.Val} {ofVal : s.Val → M}

/-- A message is the structure of the fields its schema has. -/
theorem accepts_iff (hwf : s.Wf) (hcanonical : s.canonical = true)
    (toVal_ofVal : ∀ v, toVal (ofVal v) = v)
    (ofVal_toVal : ∀ m, ofVal (toVal m) = m) {b : Bytes} (hlen : b.length < 2 ^ 64) (m : M) :
    allConsumingCompleteInput (map (generateNomRead s) ofVal) b = .ok m ↔
      asBytes s (toVal m) = .ok b ∧ s.All ShortString HashSized (toVal m) := by
  rw [allConsumingCompleteInput_eq_ok, ← generateNomRead_done_iff hwf hcanonical hlen]
  constructor
  · intro h
    obtain ⟨rest, v, hv, h⟩ := andThen_eq_done h
    cases h
    rwa [toVal_ofVal]
  · intro h
    rw [Nom.map, h, andThen_done, ofVal_toVal]

end

/-! ## The fields of the messages of a handshake -/

theorem ConnectionMessage.toVal_ofVal (v : schema.Val) : (ofVal v).toVal = v := by
  obtain ⟨port, publicKey, proofOfWorkStamp, messageNonce, ⟨name, db, p2p, _⟩, _⟩ := v
  rfl

theorem MetadataMessage.toVal_ofVal (v : schema.Val) : (ofVal v).toVal = v := by
  obtain ⟨disableMempool, privateNode, _⟩ := v
  rfl

theorem NackMotive.toVal_ofVal (v : schema.Val) : (ofVal v).toVal = v := by
  rcases (v : Unit ⊕ Unit ⊕ Unit ⊕ Unit ⊕ Unit ⊕ Unit ⊕ Empty) with _ | _ | _ | _ | _ | _ | v
  case inr.inr.inr.inr.inr.inr => cases v
  all_goals rfl

theorem AckMessage.toVal_ofVal (v : schema.Val) : (ofVal v).toVal = v := by
  rcases (v : Unit ⊕ Unit ⊕ NackInfo.schema.Val ⊕ Empty) with _ | _ | info | v
  · rfl
  · rfl
  · obtain ⟨motive, peers, _⟩ := info
    have hmotive := NackMotive.toVal_ofVal motive
    exact congrArg (fun motive : NackMotive.schema.Val =>
      (.inr (.inr (.inl (motive, peers, ()))) : schema.Val)) hmotive
  · cases v

theorem PeerMessageResponse.toVal_ofVal (v : schema.Val) : (ofVal v).toVal = v := by
  obtain ⟨message, _⟩ := v
  exact congrArg (fun message : PeerMessage.schema.Val => (message, ()))
    (PeerMessage.toVal_ofVal message)

/-! ## The bytes of a message -/

/-- Every message without paths that is written has short strings. -/
theorem and_all_iff {s : Schema} (hpath : s.NoPath) {v : s.Val} {P : Prop}
    (short : P → ShortStrings s v) : P ∧ s.All ShortString HashSized v ↔ P :=
  ⟨fun h => h.1, fun h => ⟨h, all_of_noPath s hpath (short h)⟩⟩

theorem ConnectionMessage.fromBytes_eq_ok {b : Bytes} (hlen : b.length < 2 ^ 64)
    (m : ConnectionMessage) : fromBytes b = .ok m ↔ m.asBytes = .ok b :=
  (accepts_iff schema_wf rfl toVal_ofVal ofVal_toVal hlen m).trans
    (and_all_iff (by repeat' constructor) shortStrings)

theorem MetadataMessage.fromBytes_eq_ok {b : Bytes} (hlen : b.length < 2 ^ 64)
    (m : MetadataMessage) : fromBytes b = .ok m ↔ m.asBytes = .ok b :=
  (accepts_iff schema_wf rfl toVal_ofVal ofVal_toVal hlen m).trans
    (and_all_iff (by repeat' constructor) fun _ => ⟨trivial, trivial, trivial⟩)

theorem AckMessage.fromBytes_eq_ok {b : Bytes} (hlen : b.length < 2 ^ 64) (m : AckMessage) :
    fromBytes b = .ok m ↔ m.asBytes = .ok b :=
  (accepts_iff schema_wf rfl toVal_ofVal ofVal_toVal hlen m).trans
    (and_all_iff (by repeat' constructor) shortStrings)

/-- What is accepted for a peer message has hashes of their size in its path. -/
theorem PeerMessageResponse.fromBytes_eq_ok {b : Bytes} (hlen : b.length < 2 ^ 64)
    (r : PeerMessageResponse) :
    fromBytes b = .ok r ↔ r.asBytes = .ok b ∧ r.message.HashSized := by
  constructor
  · intro h
    have hread := accepts_iff (s := schema) content_wf rfl toVal_ofVal ofVal_toVal
      hlen r
    exact ⟨(hread.mp h).1, (PeerMessage.sendable_of_fromBytes h).hashes⟩
  · intro h
    exact fromBytes_of_asBytes h.2 h.1

/-- For every kind of message, what is accepted is what is written. -/
theorem fromBytes_iff_asBytes {b : Bytes} (hlen : b.length < 2 ^ 64) :
    (∀ m : ConnectionMessage, ConnectionMessage.fromBytes b = .ok m ↔ m.asBytes = .ok b) ∧
    (∀ m : MetadataMessage, MetadataMessage.fromBytes b = .ok m ↔ m.asBytes = .ok b) ∧
    (∀ m : AckMessage, AckMessage.fromBytes b = .ok m ↔ m.asBytes = .ok b) ∧
    ∀ r : PeerMessageResponse, PeerMessageResponse.fromBytes b = .ok r ↔
      r.asBytes = .ok b ∧ r.message.HashSized :=
  ⟨ConnectionMessage.fromBytes_eq_ok hlen, MetadataMessage.fromBytes_eq_ok hlen,
    AckMessage.fromBytes_eq_ok hlen, PeerMessageResponse.fromBytes_eq_ok hlen⟩

/-- The operations of a block, with a path of two hashes and one operation. -/
def blockOperations : PeerMessageResponse where
  message := .operationsForBlocks
    ⟨⟨List.replicate 32 1, 2⟩, [.left (List.replicate 32 3), .right (List.replicate 32 4)],
      [⟨List.replicate 32 5, [6, 7]⟩]⟩

/-- The bytes of these operations. -/
def blockOperationsBytes : Bytes :=
  [0, 0, 0, 140, 0, 97] ++ List.replicate 32 1 ++ [2, 240, 15] ++ List.replicate 32 4 ++ [0] ++
    List.replicate 32 3 ++ [0, 0, 0, 34] ++ List.replicate 32 5 ++ [6, 7]

theorem fromBytes_iff_asBytes_operations :
    PeerMessageResponse.fromBytes blockOperationsBytes = .ok blockOperations ∧
    ∀ m, MetadataMessage.fromBytes [0xff, 0x00] = .ok m ↔ m.asBytes = .ok [0xff, 0x00] := by
  have written : blockOperations.asBytes = .ok blockOperationsBytes := by decide +kernel
  have sized : blockOperations.message.HashSized := by
    simp [blockOperations, PeerMessage.HashSized, HashSized, PathItem.hash]
  exact ⟨((fromBytes_iff_asBytes (by decide +kernel)).2.2.2 blockOperations).mpr ⟨written, sized⟩,
    (fromBytes_iff_asBytes (by decide)).2.1⟩

end NodeFuzzer
