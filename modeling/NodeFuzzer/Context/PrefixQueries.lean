import NodeFuzzer.Context.WorkingTree
import NodeFuzzer.Encoding.Hex

/-!
# Queries by prefix

`get_key_values_by_prefix` of a working tree, `get_context_key_values_by_prefix` of the
index, and `_get_context_tree_by_prefix`, which makes the tree of strings for JSON.  They
start from the id of a commit, look up the directory at the prefix and walk what is below
it.

The listing is written twice in the source.  The two texts differ in how the root of a
commit is fetched and in nothing else, so that they are one definition here with that call
as a parameter.  Both build the path of a value as a string and split it at the end.  The
walks have a bound on the depth of their calls.
-/

namespace NodeFuzzer

open KeyValueStoreBackend

variable {S : Type} [KeyValueStoreBackend S]

/-! ## Entries by id -/

namespace TezedgeIndex

/-- `get_commit`. -/
def getCommit (hash : HashId) : Call S MerkleError Commit := do
  let commit ← Exec.mapErr .dbError (findCommit hash)
  Exec.orFail (.entryNotFound hash) commit

/-- `get_tree`. -/
def getTree (hash : HashId) : Call S MerkleError Tree := do
  let tree ← Exec.mapErr .dbError (findTree hash)
  Exec.orFail (.entryNotFound hash) tree

/-- `string_to_key`. -/
def stringToKey (string : String) : ContextKey := (string.toList.splitOn '/').map String.ofList

end TezedgeIndex

open TezedgeIndex (findRawTree keyToString stringToKey)

/-- `get_entry_from_hash_id`, where the store it is given is that of the index. -/
def WorkingTree.getEntryFromHashId (hashId : HashId) : Call S MerkleError Entry := do
  let bytes ← Exec.mapErr .dbError (Call.askRepo (getValue hashId))
  match bytes with
  | none => Exec.fail (.entryNotFound hashId)
  | some entryBytes => deserialize .serializationError entryBytes

/-! ## Listing -/

/-- `get_key_values_from_tree_recursively`: what it pushes to the list of entries.  The two
copies get the root of a commit by different calls. -/
def keyValuesFromTree (getEntry : HashId → Call S MerkleError Entry) :
    Nat → String → Entry → Call S MerkleError (List (ContextKey × ContextValue))
  | 0, _, _ => Exec.abort
  | _ + 1, path, .blob blob => pure [(stringToKey path, blob)]
  | fuel + 1, path, .tree tree => do
      let below ← Exec.mapEach (fun p => do
        let fullpath := path ++ "/" ++ p.1
        let entry ← Exec.handle (fun _ : MerkleError => pure none) (do
          let entry ← TezedgeIndex.nodeEntry p.2
          pure (some entry))
        match entry with
        -- `Err(_) => Ok(())`
        | none => pure []
        | some entry => keyValuesFromTree getEntry fuel fullpath entry) tree.entries
      pure below.flatten
  | fuel + 1, path, .commit commit => do
      let entry ← getEntry commit.rootHash
      keyValuesFromTree getEntry fuel path entry

/-- `_get_key_values_by_prefix` and `_get_context_key_values_by_prefix`. -/
def keyValuesByPrefix (getEntry : HashId → Call S MerkleError Entry) (fuel : Nat)
    (rootTree : Tree) (keyPrefix : ContextKey) :
    Call S MerkleError (Option (List (ContextKey × ContextValue))) := do
  let prefixedTree ← findRawTree rootTree keyPrefix
  let delimiter := if keyPrefix.isEmpty then "" else "/"
  let keyvalues ← Exec.mapEach (fun p => do
    let entry ← TezedgeIndex.nodeEntry p.2
    let fullpath := keyToString keyPrefix ++ delimiter ++ p.1
    keyValuesFromTree getEntry fuel fullpath entry) prefixedTree.entries
  pure (if keyvalues.flatten.isEmpty then none else some keyvalues.flatten)

namespace WorkingTree

/-- `get_key_values_from_tree_recursively` of a working tree. -/
def getKeyValuesFromTreeRecursively (fuel : Nat) (path : String) (entry : Entry) :
    Call S MerkleError (List (ContextKey × ContextValue)) :=
  keyValuesFromTree getEntryFromHashId fuel path entry

/-- `get_key_values_by_prefix`. -/
def getKeyValuesByPrefix (fuel : Nat) (contextHashId : HashId) (keyPrefix : ContextKey) :
    Call S MerkleError (Option (List (ContextKey × ContextValue))) := do
  let commit ← TezedgeIndex.getCommit contextHashId
  let entry ← getEntryFromHashId commit.rootHash
  let rootTree ← entryTree entry
  keyValuesByPrefix getEntryFromHashId fuel rootTree keyPrefix

end WorkingTree

namespace TezedgeIndex

/-- `get_key_values_from_tree_recursively` of the index. -/
def getKeyValuesFromTreeRecursively (fuel : Nat) (path : String) (entry : Entry) :
    Call S MerkleError (List (ContextKey × ContextValue)) :=
  keyValuesFromTree getEntry fuel path entry

/-- `get_context_key_values_by_prefix`. -/
def getContextKeyValuesByPrefix (fuel : Nat) (contextHash : HashId) (keyPrefix : ContextKey) :
    Call S MerkleError (Option (List (ContextKey × ContextValue))) := do
  let commit ← getCommit contextHash
  let rootTree ← getTree commit.rootHash
  keyValuesByPrefix getEntry fuel rootTree keyPrefix

end TezedgeIndex

/-! ## The tree of strings -/

/-- `StringTreeEntry`; a `StringTreeMap` is its list of entries in the order of keys. -/
inductive StringTreeEntry where
  | tree (entries : List (String × StringTreeEntry))
  | blob (value : String)
  | null

namespace StringTreeEntry

/-- The entries inserted into a `StringTreeMap`, one after the other. -/
def ofEntries (entries : List (String × StringTreeEntry)) : StringTreeEntry :=
  .tree (entries.foldl (fun map p => OrdMap.insertEntry p.1 p.2 map) [])

end StringTreeEntry

/-- `depth.map(|d| d - 1)`; the subtraction can underflow. -/
def depthBelow {ε : Type} : Option Nat → Call S ε (Option Nat)
  | none => pure none
  | some 0 => Exec.abort
  | some (d + 1) => pure (some d)

namespace TezedgeIndex

/-- `get_context_recursive`. -/
def getContextRecursive :
    Nat → String → Entry → Option Nat → Call S MerkleError StringTreeEntry
  | 0, _, _, _ => Exec.abort
  | fuel + 1, path, entry, depth =>
      if depth = some 0 then pure .null
      else match entry with
      | .blob blob => pure (.blob (hexEncode blob))
      | .tree tree => do
          let entries ← Exec.mapEach (fun p => do
            let fullpath := path ++ "/" ++ p.1
            let entry ← nodeEntry p.2
            let rdepth ← depthBelow depth
            let below ← getContextRecursive fuel fullpath entry rdepth
            pure (p.1, below)) tree.entries
          pure (.ofEntries entries)
      | .commit _ => Exec.fail (.foundUnexpectedStructure "Tree/Blob" "Commit")

/-- `_get_context_tree_by_prefix`. -/
def getContextTreeByPrefix (fuel : Nat) (contextHash : HashId) (keyPrefix : ContextKey)
    (depth : Option Nat) : Call S MerkleError StringTreeEntry :=
  if depth = some 0 then pure .null
  else do
    let commit ← getCommit contextHash
    let rootTree ← getTree commit.rootHash
    let prefixedTree ← findRawTree rootTree keyPrefix
    let delimiter := if keyPrefix.isEmpty then "" else "/"
    let out ← Exec.mapEach (fun p => do
      let entry ← nodeEntry p.2
      let fullpath := keyToString keyPrefix ++ delimiter ++ p.1
      let rdepth ← depthBelow depth
      let below ← getContextRecursive fuel fullpath entry rdepth
      pure (p.1, below)) prefixedTree.entries
    pure (.ofEntries out)

end TezedgeIndex

end NodeFuzzer
