import NodeFuzzer.Encoding.Nom
import NodeFuzzer.Encoding.BinaryWriter

/-!
# Merkle paths

A path in the Merkle tree of a list of operation lists.  The codec writes the
marker of every step from the root down, with the hash of a right step behind
its marker, then an end marker, then the hashes of the left steps from the
bottom up.  The reader collects the markers up to the end marker and then takes
the hashes of the left steps in reverse.
-/

namespace NodeFuzzer

/-- Maximal length of a path in a Merkle tree of operation lists. -/
def MAX_PASS_MERKLE_DEPTH : Option Nat := some 3

/-- `PathItem`, with `PathLeft` and `PathRight` reduced to their hash. -/
inductive PathItem where
  | right (left : Bytes)
  | left (right : Bytes)
deriving DecidableEq, Repr

/-- The hash of an item. -/
def PathItem.hash : PathItem → Bytes
  | .right h => h
  | .left h => h

/-- A byte string as the serializer sees it. -/
def bytesValue (b : Bytes) : Value := .list (b.map .uint8)

/-- The derived `Serialize` of `PathItem`. -/
def PathItem.toValue : PathItem → Value
  | .right h => .tag "Right" (.record [("left", bytesValue h)])
  | .left h => .tag "Left" (.record [("right", bytesValue h)])

/-- `Serialize for Path`. -/
def pathToValue (maxDepth : Option Nat) (items : List PathItem) : Except SerError Value :=
  match maxDepth with
  | some max =>
      if items.length > max then .error (.pathTooLong max)
      else .ok (.list (items.map PathItem.toValue))
  | none => .ok (.list (items.map PathItem.toValue))

/-! ## Writing -/

@[simp] theorem listToU8s_bytesValue (onOther : SerError) (b : Bytes) :
    listToU8s onOther (b.map .uint8) = .ok b := by
  induction b with
  | nil => rfl
  | cons x b ih => simp [listToU8s, ih, bind, Except.bind, pure, Except.pure]

/-- The two parts of an item: what stands before the end marker, and after it. -/
def PathItem.parts : PathItem → Bytes × Option Bytes
  | .right h => (0x0F :: h, none)
  | .left h => ([0xF0], some h)

theorem encodePathItem_toValue (item : PathItem) :
    encodePathItem item.toValue = .ok item.parts := by
  cases item <;>
    simp [PathItem.toValue, encodePathItem, bytesValue, PathItem.parts, bind, Except.bind, pure,
      Except.pure]

theorem mapM_encodePathItem (items : List PathItem) :
    (items.map PathItem.toValue).mapM encodePathItem = .ok (items.map PathItem.parts) := by
  induction items with
  | nil => rfl
  | cons item items ih =>
      rw [List.map_cons, List.mapM_cons, encodePathItem_toValue, ih]
      rfl

theorem body_path (items : List PathItem) :
    body .custom (.list (items.map PathItem.toValue)) = .ok (bodyPath (items.map PathItem.parts)) := by
  rw [body, mapM_encodePathItem]
  rfl

namespace Nom

/-! ## Reading -/

/-- `DecodePathNode`. -/
inductive DecodePathNode where
  | left
  | right (hash : Bytes)
deriving DecidableEq, Repr

/-- The hash of a path item. -/
def hash : Reader Bytes := take HashType.operationListListHash.size

/-- The marker of a left step. -/
def pathLeft : Reader DecodePathNode := preceded (tag [0xf0]) (success .left)

/-- The marker of a right step and its hash. -/
def pathRight : Reader DecodePathNode := preceded (tag [0x0f]) (map hash .right)

/-- The end marker. -/
def pathOp : Reader Unit := preceded (tag [0x00]) (success ())

/-- The loop of `path_complete`, over the nodes in reverse. -/
def pathCompleteLoop : List DecodePathNode → List PathItem → Reader (List PathItem)
  | [], res, input => .done input res
  | .left :: nodes, res, input =>
      (hash input).andThen fun rest h => pathCompleteLoop nodes (res ++ [.left h]) rest
  | .right h :: nodes, res, input => pathCompleteLoop nodes (res ++ [.right h]) input

/-- `path_complete`. -/
def pathComplete (nodes : List DecodePathNode) : Reader (List PathItem) := fun input =>
  (pathCompleteLoop nodes.reverse [] input).andThen fun rest res => .done rest res.reverse

/-- `NomReader for Path`, under a bound on the depth. -/
def path (maxDepth : Option Nat) : Reader (List PathItem) :=
  flatMap
    (verify (manyTill (alt pathLeft pathRight) pathOp) fun nodes =>
      (maxDepth.map fun v => decide (nodes.length ≤ v)).getD true)
    pathComplete

/-- The node a path item is read as. -/
def nodeOf : PathItem → DecodePathNode
  | .right h => .right h
  | .left _ => .left

theorem node_append {item : PathItem} (h : item.hash.length = 32) (s : Bytes) :
    alt pathLeft pathRight (item.parts.1 ++ s) = .done s (nodeOf item) := by
  cases item with
  | left hash =>
      simp [PathItem.parts, alt, pathLeft, preceded, tag, success, nodeOf, IResult.andThen]
  | right bytes =>
      have hread : hash (bytes ++ s) = .done s bytes := take_append h
      simp [PathItem.parts, alt, pathLeft, pathRight, preceded, tag, nodeOf, map,
        IResult.andThen, hread]

theorem pathOp_item (item : PathItem) (s : Bytes) :
    ∃ e, pathOp (item.parts.1 ++ s) = .error e := by
  cases item <;> simp [PathItem.parts, pathOp, preceded, tag, IResult.andThen]

theorem foldManyTill_path (s : Bytes) : ∀ (items : List PathItem) (fuel : Nat)
    (acc : List DecodePathNode), items.length < fuel → (∀ item ∈ items, item.hash.length = 32) →
    foldManyTill (alt pathLeft pathRight) pathOp fuel acc
      (((items.map PathItem.parts).map Prod.fst).flatten ++ 0x00 :: s) =
        .done s (acc ++ items.map nodeOf)
  | _, 0, _, hf, _ => absurd hf (by omega)
  | [], fuel + 1, acc, _, _ => by
      simp [foldManyTill, pathOp, preceded, tag, success]
  | item :: items, fuel + 1, acc, hf, hlen => by
      rw [List.map_cons, List.map_cons, List.flatten_cons, List.append_assoc, foldManyTill]
      obtain ⟨e, he⟩ := pathOp_item item
        (((items.map PathItem.parts).map Prod.fst).flatten ++ 0x00 :: s)
      have hne : ∀ t : Bytes, ¬ t = item.parts.1 ++ t := by
        intro t ht
        have hl := congrArg List.length ht
        cases item <;> simp [PathItem.parts] at hl
        omega
      simp only [he, node_append (hlen item (by simp)), if_neg (hne _)]
      rw [foldManyTill_path s items fuel (acc ++ [nodeOf item])
        (by simpa using hf) (fun i hi => hlen i (by simp [hi]))]
      simp

theorem pathCompleteLoop_append (s : Bytes) : ∀ (items : List PathItem) (res : List PathItem),
    (∀ item ∈ items, item.hash.length = 32) →
    pathCompleteLoop (items.map nodeOf) res
      (((items.map PathItem.parts).filterMap Prod.snd).flatten ++ s) = .done s (res ++ items)
  | [], res, _ => by simp [pathCompleteLoop]
  | .right h :: items, res, hlen => by
      have ih := pathCompleteLoop_append s items (res ++ [.right h])
        (fun i hi => hlen i (by simp [hi]))
      simpa [pathCompleteLoop, nodeOf, PathItem.parts] using ih
  | .left h :: items, res, hlen => by
      have ih := pathCompleteLoop_append s items (res ++ [.left h])
        (fun i hi => hlen i (by simp [hi]))
      have hread : ∀ t, hash (h ++ t) = .done t h := fun t =>
        take_append (hlen (.left h) (by simp))
      simpa [pathCompleteLoop, nodeOf, PathItem.parts, hread] using ih

/-- The reader of paths reads back what the codec writes. -/
theorem path_append {items : List PathItem} {maxDepth : Option Nat}
    (hlen : ∀ item ∈ items, item.hash.length = 32)
    (hmax : ∀ max, maxDepth = some max → items.length ≤ max) (s : Bytes) :
    path maxDepth (bodyPath (items.map PathItem.parts) ++ s) = .done s items := by
  have hnodes : manyTill (alt pathLeft pathRight) pathOp
      (bodyPath (items.map PathItem.parts) ++ s) =
        .done (((items.map PathItem.parts).filterMap Prod.snd).reverse.flatten ++ s)
          (items.map nodeOf) := by
    have hfuel : items.length < (bodyPath (items.map PathItem.parts) ++ s).length + 1 := by
      have hitems : items.length ≤ ((items.map PathItem.parts).map Prod.fst).flatten.length := by
        clear hlen hmax
        induction items with
        | nil => simp
        | cons item items ih => cases item <;> simp [PathItem.parts] at ih ⊢ <;> omega
      simp only [bodyPath, List.length_append]
      omega
    rw [manyTill]
    simpa [bodyPath] using foldManyTill_path
      (((items.map PathItem.parts).filterMap Prod.snd).reverse.flatten ++ s) items _ [] hfuel hlen
  have hloop := pathCompleteLoop_append s items.reverse []
    (fun i hi => hlen i (List.mem_reverse.mp hi))
  rw [List.map_reverse, List.map_reverse, List.filterMap_reverse] at hloop
  have hverify : (maxDepth.map fun v => decide ((items.map nodeOf).length ≤ v)).getD true = true := by
    cases hm : maxDepth with
    | none => rfl
    | some max => simpa using hmax max hm
  simp only [path, flatMap, verify, hnodes, andThen_done]
  rw [if_pos hverify, andThen_done, pathComplete, hloop, andThen_done, List.nil_append,
    List.reverse_reverse]

end Nom

end NodeFuzzer
