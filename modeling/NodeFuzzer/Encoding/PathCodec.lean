import NodeFuzzer.Encoding.Accepted

/-!
# The Merkle path codec

The reader of paths is the inverse of `PathCodec::encode`.  What the reader
accepts was written by the codec: the nodes in front of the end marker fix the
items (`nodeOf`), and the loop over the nodes in reverse takes the hashes of the
left steps in the order in which they stand behind the marker.
-/

namespace NodeFuzzer

open Nom

/-- The bytes of a node in front of the end marker. -/
def nodeBytes : DecodePathNode → Bytes
  | .left => [0xF0]
  | .right h => 0x0F :: h

@[simp] theorem nodeBytes_nodeOf (item : PathItem) : nodeBytes (nodeOf item) = item.parts.1 := by
  cases item <;> rfl

theorem consumes_node : Consumes (alt pathLeft pathRight) nodeBytes := by
  have hleft : Consumes pathLeft nodeBytes := by
    intro input rest node h
    obtain ⟨rest', _, htag, hvalue⟩ := andThen_eq_done h
    cases hvalue
    exact consumes_tag _ _ _ _ htag
  have hright : Consumes pathRight nodeBytes := by
    intro input rest node h
    obtain ⟨rest', _, htag, hvalue⟩ := andThen_eq_done h
    obtain ⟨rest'', bytes, hhash, hvalue⟩ := andThen_eq_done hvalue
    cases hvalue
    have hmarker := consumes_tag _ _ _ _ htag
    have hbytes := consumes_take 32 _ _ _ hhash
    simpa [hbytes, nodeBytes] using hmarker
  exact hleft.alt hright

theorem consumes_pathOp : Consumes pathOp fun _ => [0x00] :=
  (consumes_tag [0x00]).preceded (consumes_success ())

/-- The loop over the nodes gives them their items, and takes the hashes of the
left steps among these. -/
theorem pathCompleteLoop_consumes {nodes : List DecodePathNode} {res items : List PathItem}
    {input rest : Bytes} (h : pathCompleteLoop nodes res input = .done rest items) :
    ∃ new, items = res ++ new ∧ new.map nodeOf = nodes ∧
      input = ((new.map PathItem.parts).filterMap Prod.snd).flatten ++ rest := by
  induction nodes generalizing res input with
  | nil =>
      cases h
      exact ⟨[], by simp, rfl, rfl⟩
  | cons node nodes ih =>
      cases node with
      | right hash =>
          obtain ⟨new, rfl, hnew, hinput⟩ := ih h
          exact ⟨.right hash :: new, by simp, by simp [hnew, nodeOf],
            by simpa [PathItem.parts] using hinput⟩
      | left =>
          obtain ⟨rest', bytes, hbytes, h⟩ := andThen_eq_done h
          obtain ⟨new, rfl, hnew, hinput⟩ := ih h
          have htaken := consumes_take 32 _ _ _ hbytes
          exact ⟨.left bytes :: new, by simp, by simp [hnew, nodeOf],
            by simp [PathItem.parts, htaken, hinput]⟩

/-- What the reader does when it succeeds: the nodes up to the end marker, of
which there are not too many, and the loop over them. -/
theorem path_done {maxDepth : Option Nat} {input rest : Bytes} {items : List PathItem}
    (h : path maxDepth input = .done rest items) :
    ∃ rest' nodes, manyTill (alt pathLeft pathRight) pathOp input = .done rest' nodes ∧
      pathComplete nodes rest' = .done rest items ∧
      (maxDepth.map fun v => decide (nodes.length ≤ v)).getD true = true := by
  obtain ⟨rest', nodes, hverify, h⟩ := andThen_eq_done h
  obtain ⟨rest'', nodes', hmany, hverify⟩ := andThen_eq_done hverify
  split at hverify
  next hdepth =>
    cases hverify
    exact ⟨rest', nodes, hmany, h, hdepth⟩
  next => cases hverify

/-- A path is read from the bytes the codec writes for it. -/
theorem consumes_path (maxDepth : Option Nat) :
    Consumes (path maxDepth) fun items => bodyPath (items.map PathItem.parts) := by
  intro input rest items h
  obtain ⟨rest', nodes, hmany, h, _⟩ := path_done h
  obtain ⟨rest'', res, hloop, h⟩ := andThen_eq_done h
  cases h
  obtain ⟨new, hres, hnodes, hlefts⟩ := pathCompleteLoop_consumes hloop
  rw [List.nil_append] at hres
  have hmarks := (consumes_node.manyTill consumes_pathOp) _ _ _ hmany
  have hbytes : nodes.map nodeBytes = (res.reverse.map PathItem.parts).map Prod.fst := by
    rw [← List.reverse_reverse nodes, ← hnodes, ← hres, ← List.map_reverse, List.map_map,
      List.map_map]
    exact List.map_congr_left fun item _ => nodeBytes_nodeOf item
  have htails : ((res.reverse.map PathItem.parts).filterMap Prod.snd).reverse =
      (res.map PathItem.parts).filterMap Prod.snd := by
    rw [List.map_reverse, List.filterMap_reverse, List.reverse_reverse]
  dsimp only at hmarks ⊢
  rw [hmarks, hbytes, hlefts, ← hres, bodyPath, htails]
  simp

/-- The depth check only turns results down. -/
theorem path_none {maxDepth : Option Nat} {input rest : Bytes} {items : List PathItem}
    (h : path maxDepth input = .done rest items) : path none input = .done rest items := by
  obtain ⟨rest', nodes, hmany, h, _⟩ := path_done h
  simp [path, flatMap, verify, hmany, h]

theorem path_length {maxDepth : Option Nat} {input rest : Bytes} {items : List PathItem}
    (h : path maxDepth input = .done rest items) :
    ∀ max, maxDepth = some max → items.length ≤ max := by
  obtain ⟨rest', nodes, _, h, hdepth⟩ := path_done h
  obtain ⟨rest'', res, hloop, h⟩ := andThen_eq_done h
  obtain ⟨new, hres, hnodes, _⟩ := pathCompleteLoop_consumes hloop
  have hlen : new.length = nodes.length := by
    simpa using congrArg List.length hnodes
  cases h
  intro max hmax
  subst hmax
  simpa [hres, hlen] using hdepth

theorem encodePath_toValue (data : Bytes) (items : List PathItem) :
    encodePath data (.list (items.map PathItem.toValue)) =
      .ok ((bodyPath (items.map PathItem.parts)).length,
        data ++ bodyPath (items.map PathItem.parts)) := by
  have hbody : ((items.map PathItem.toValue).mapM encodePathItem).map bodyPath =
      .ok (bodyPath (items.map PathItem.parts)) := by
    rw [mapM_encodePathItem]
    rfl
  rw [encodePath_eq, hbody]
  rfl

theorem asBytes_path (items : List PathItem) :
    (∃ b, asBytes Schema.path items = .ok b) ↔
      ∀ max, MAX_PASS_MERKLE_DEPTH = some max → items.length ≤ max := by
  constructor
  · intro h
    obtain ⟨b, hb⟩ := h
    exact (encodes_path (asBytes_iff.mp hb)).1
  · intro hmax
    have hle := hmax 3 rfl
    have hvalue : pathToValue MAX_PASS_MERKLE_DEPTH items =
        .ok (.list (items.map PathItem.toValue)) := if_neg (by omega)
    exact ⟨_, asBytes_iff.mpr ⟨_, hvalue, body_path items⟩⟩

/-- The reader with a depth check accepts what the codec writes for a path
exactly when the path is within the bound. -/
theorem path_accepts {items : List PathItem} (maxDepth : Option Nat)
    (hlen : ∀ item ∈ items, item.hash.length = 32) (s : Bytes) :
    (∃ rest items', path maxDepth (bodyPath (items.map PathItem.parts) ++ s) =
        .done rest items') ↔
      ∀ max, maxDepth = some max → items.length ≤ max := by
  constructor
  · intro h
    obtain ⟨rest, items', h⟩ := h
    have hread : path none (bodyPath (items.map PathItem.parts) ++ s) = .done s items :=
      path_append hlen (by simp) s
    cases (path_none h).symm.trans hread
    exact path_length h
  · intro hmax
    exact ⟨s, items, path_append hlen hmax s⟩

/-- The reader without the depth check and the codec are inverse to each other;
the depth check of the serializer is the one of the reader. -/
theorem pathCodec_exact :
    (∀ items : List PathItem, (∀ item ∈ items, item.hash.length = 32) → ∀ data s : Bytes,
      ∃ n b, encodePath data (.list (items.map PathItem.toValue)) = .ok (n, data ++ b) ∧
        path none (b ++ s) = .done s items) ∧
    (∀ (maxDepth : Option Nat) (input rest : Bytes) (items : List PathItem),
      path maxDepth input = .done rest items → ∀ data : Bytes,
        ∃ n b, encodePath data (.list (items.map PathItem.toValue)) = .ok (n, data ++ b) ∧
          input = b ++ rest) ∧
    (∀ items : List PathItem, (∀ item ∈ items, item.hash.length = 32) →
      ((∃ b, asBytes Schema.path items = .ok b) ↔
        ∀ max, MAX_PASS_MERKLE_DEPTH = some max → items.length ≤ max) ∧
      ∀ (n : Nat) (b s : Bytes), encodePath [] (.list (items.map PathItem.toValue)) = .ok (n, b) →
        ((∃ rest items', path MAX_PASS_MERKLE_DEPTH (b ++ s) = .done rest items') ↔
          ∀ max, MAX_PASS_MERKLE_DEPTH = some max → items.length ≤ max)) := by
  refine ⟨?_, ?_, ?_⟩
  · intro items hlen data s
    have hread : path none (bodyPath (items.map PathItem.parts) ++ s) = .done s items :=
      path_append hlen (by simp) s
    exact ⟨_, _, encodePath_toValue data items, hread⟩
  · intro maxDepth input rest items h data
    exact ⟨_, _, encodePath_toValue data items, consumes_path maxDepth _ _ _ h⟩
  · intro items hlen
    refine ⟨asBytes_path items, ?_⟩
    intro n b s hwritten
    rw [encodePath_toValue] at hwritten
    cases hwritten
    exact path_accepts MAX_PASS_MERKLE_DEPTH hlen s

/-- A right step below a left step, and the input of the empty path. -/
theorem pathCodec_exact_leftRight :
    let items : List PathItem := [.left (List.replicate 32 1), .right (List.replicate 32 2)]
    (∃ n b, encodePath [7] (.list (items.map PathItem.toValue)) = .ok (n, [7] ++ b) ∧
      path none (b ++ [9]) = .done [9] items) ∧
    (∃ n b, encodePath [7] (.list (([] : List PathItem).map PathItem.toValue)) = .ok (n, [7] ++ b) ∧
      [0x00, 9] = b ++ [9]) ∧
    ((∃ b, asBytes Schema.path items = .ok b) ↔
      ∀ max, MAX_PASS_MERKLE_DEPTH = some max → items.length ≤ max) := by
  intro items
  have hlen : ∀ item ∈ items, item.hash.length = 32 := by simp [items, PathItem.hash]
  exact ⟨pathCodec_exact.1 items hlen [7] [9], pathCodec_exact.2.1 none [0x00, 9] [9] [] rfl [7],
    (pathCodec_exact.2.2 items hlen).1⟩

end NodeFuzzer
