import NodeFuzzer.Context.Hash

/-!
# The working tree

`WorkingTree` and the functions of `TezedgeIndex` it uses.  A working tree is a
persistent map: a change makes new nodes on the path from the root and shares all
others.  Entries of nodes that came out of the store are loaded when they are first
read, and stay in the node.

`computeNewRootWithChange` walks its key from the end, so that it recurses on the
reversed key.  `getEntriesRecursively` has a bound on the depth of its calls, as
hashing has.
-/

namespace NodeFuzzer

open KeyValueStoreBackend

variable {S : Type} [KeyValueStoreBackend S]

/-! ## Loading entries -/

/-- A node as it is deserialized. -/
def storedNode (p : NodeKind × HashId) : Node := ⟨p.1, true, some p.2, none⟩

/-- `bincode::deserialize`: the nodes of a directory are new ones. -/
def deserialize {ε : Type} (error : ε) : Serialized → Call S ε Entry
  | .tree entries => fun w =>
      (.ok (.tree (entries.mapPosition fun i => w.heap.next + i)),
        { w with heap := w.heap.allocAll (entries.entries.map fun p => storedNode p.2) })
  | .blob value => pure (.blob value)
  | .commit commit => pure (.commit commit)
  | .invalid => Exec.fail error

namespace TezedgeIndex

/-- `find_entry`. -/
def findEntry (hash : HashId) : Call S DBError (Option Entry) := do
  let bytes ← Call.askRepo (getValue hash)
  match bytes with
  | none => pure none
  | some entryBytes => do
      let entry ← deserialize .serializationError entryBytes
      pure (some entry)

/-- `get_entry`. -/
def getEntry (hash : HashId) : Call S MerkleError Entry := do
  let entry ← Exec.mapErr .dbError (findEntry hash)
  Exec.orFail (.entryNotFound hash) entry

/-- `find_commit`. -/
def findCommit (hash : HashId) : Call S DBError (Option Commit) := do
  let entry ← findEntry hash
  match entry with
  | some (.commit commit) => pure (some commit)
  | some (.tree _) => Exec.fail (.foundUnexpectedStructure "commit" "tree")
  | some (.blob _) => Exec.fail (.foundUnexpectedStructure "commit" "blob")
  | none => pure none

/-- `find_tree`. -/
def findTree (hash : HashId) : Call S DBError (Option Tree) := do
  let entry ← findEntry hash
  match entry with
  | some (.tree tree) => pure (some tree)
  | some (.blob _) => Exec.fail (.foundUnexpectedStructure "tree" "blob")
  | some (.commit _) => Exec.fail (.foundUnexpectedStructure "tree" "commit")
  | none => pure none

/-- `node_entry`. -/
def nodeEntry (a : Addr) : Call S MerkleError Entry := do
  let node ← Call.readNode a
  match node.entry with
  | some entry => pure entry
  | none => do
      let hash ← Exec.orFail (.invalidState "Missing entry hash") node.entryHash
      let entry ← getEntry hash
      Call.updateNode a fun node => { node with entry := some entry }
      pure entry

/-- `find_raw_tree`: the directory at a path, empty when there is none. -/
def findRawTree : Tree → ContextKey → Call S MerkleError Tree
  | root, [] => pure root
  | root, first :: rest =>
      match root.get first with
      | none => pure .empty
      | some childNode => do
          let entry ← TezedgeIndex.nodeEntry childNode
          match entry with
          | .tree tree => findRawTree tree rest
          | .blob _ => pure .empty
          | .commit _ => Exec.fail (.foundUnexpectedStructure "Tree/Blob" "commit")

/-- `key_to_string`. -/
def keyToString (key : ContextKey) : String := "/".intercalate key

end TezedgeIndex

open TezedgeIndex (getEntry findRawTree keyToString)

/-! ## Trees -/

/-- `WorkingTree` with its `WorkingTreeValue`. -/
inductive WorkingTree where
  | tree (tree : Tree)
  | value (value : ContextValue)
deriving DecidableEq

/-- `get_non_leaf`. -/
def getNonLeaf (entry : Entry) : Node := ⟨.nonLeaf, false, none, some entry⟩

/-- `get_leaf`. -/
def getLeaf (entry : Entry) : Node := ⟨.leaf, false, none, some entry⟩

/-- `entry_tree`. -/
def entryTree : Entry → Call S MerkleError Tree
  | .tree tree => pure tree
  | .blob _ => Exec.fail (.foundUnexpectedStructure "tree" "blob")
  | .commit _ => Exec.fail (.foundUnexpectedStructure "tree" "commit")

namespace WorkingTree

/-- `WorkingTree::new`. -/
def new : WorkingTree := .tree .empty

/-- `get_working_tree_root_ref`. -/
def root : WorkingTree → Tree
  | .tree root => root
  | .value _ => .empty

/-- `find_tree`. -/
def findTree (self : WorkingTree) (key : ContextKey) :
    Call S MerkleError (Option WorkingTree) := do
  let tree ← findRawTree self.root key
  if tree.isEmpty then pure none else pure (some (.tree tree))

/-- `get_from_tree`. -/
def getFromTree (root : Tree) (key : ContextKey) : Call S MerkleError ContextValue :=
  match key.getLast? with
  | none => Exec.fail .keyEmpty
  | some file => do
      let node ← findRawTree root key.dropLast
      let node ← Exec.orFail (.valueNotFound (keyToString key)) (node.get file)
      let entry ← TezedgeIndex.nodeEntry node
      match entry with
      | .blob blob => pure blob
      | _ => Exec.fail (.valueIsNotABlob (keyToString key))

/-- `find`. -/
def find (self : WorkingTree) (key : ContextKey) :
    Call S MerkleError (Option ContextValue) :=
  Exec.handle (fun err =>
      match err with
      | .valueNotFound _ => pure none
      | err => Exec.fail err) do
    let value ← getFromTree self.root key
    pure (some value)

/-- `mem`. -/
def mem (self : WorkingTree) (key : ContextKey) : Call S MerkleError Bool :=
  match key.getLast? with
  | none => Exec.fail .keyEmpty
  | some file => Exec.handle (fun _ : MerkleError => pure false) do
      let node ← findRawTree self.root key.dropLast
      pure (node.get file).isSome

/-- `mem_tree`. -/
def memTree (self : WorkingTree) (key : ContextKey) : Call S MerkleError Bool :=
  Exec.handle (fun _ : MerkleError => pure false) do
    let node ← findRawTree self.root key
    pure (!node.isEmpty)

/-- A child of a directory as a tree of its own; a commit is left out. -/
def childTree (name : KeyFragment) : Entry → Option (KeyFragment × WorkingTree)
  | .tree root => some (name, .tree root)
  | .blob blob => some (name, .value blob)
  | .commit _ => none

/-- `list`. -/
def list (self : WorkingTree) (offset length : Option Nat) (key : ContextKey) :
    Call S MerkleError (List (KeyFragment × WorkingTree)) := do
  let node ← findRawTree self.root key
  let nodeLength := node.len
  let length := min (length.getD nodeLength) nodeLength
  let offset := offset.getD 0
  let children ← Exec.mapEach (fun p => do
    let entry ← TezedgeIndex.nodeEntry p.2
    pure (childTree p.1 entry)) ((node.entries.drop offset).take length)
  pure children.reduceOption

/-! ## Changes -/

/-- `compute_new_root_with_change`, on the key from its end. -/
def computeNewRoot (root : Tree) : List KeyFragment → Option Node → Call S MerkleError Entry
  | [], some node => Exec.orFail (.invalidState "Missing entry value") node.entry
  | [], none => pure (.tree .empty)
  | last :: path, newNode => do
      let tree ← findRawTree root path.reverse
      let tree ← match newNode with
        | none => pure (tree.remove last)
        | some node => do
            let a ← Call.newNode node
            pure (tree.insert last a)
      if tree.isEmpty then computeNewRoot root path none
      else computeNewRoot root path (some (getNonLeaf (.tree tree)))

/-- `compute_new_root_with_change`. -/
def computeNewRootWithChange (self : WorkingTree) (key : ContextKey) (newNode : Option Node) :
    Call S MerkleError Entry := computeNewRoot self.root key.reverse newNode

/-- `add`. -/
def add (self : WorkingTree) (key : ContextKey) (value : ContextValue) :
    Call S MerkleError WorkingTree := do
  let entry ← self.computeNewRootWithChange key (some (getLeaf (.blob value)))
  let tree ← entryTree entry
  pure (.tree tree)

/-- The node `add_tree` puts in place. -/
def toNode : WorkingTree → Node
  | .tree root => getNonLeaf (.tree root)
  | .value blob => getLeaf (.blob blob)

/-- `add_tree`. -/
def addTree (self : WorkingTree) (key : ContextKey) (tree : WorkingTree) :
    Call S MerkleError WorkingTree := do
  let entry ← self.computeNewRootWithChange key (some tree.toNode)
  let tree ← entryTree entry
  pure (.tree tree)

/-- `delete`. -/
def delete (self : WorkingTree) (key : ContextKey) : Call S MerkleError WorkingTree := do
  let entry ← if key = [] then pure (.tree self.root)
    else self.computeNewRootWithChange key none
  let tree ← entryTree entry
  pure (.tree tree)

/-- `copy`. -/
def copy (self : WorkingTree) (fromKey toKey : ContextKey) :
    Call S MerkleError (Option WorkingTree) := do
  let source ← Exec.handle (fun err =>
      match err with
      | .entryNotFound _ => pure none
      | err => Exec.fail err) do
    let tree ← findRawTree self.root fromKey
    pure (some tree)
  match source with
  | none => pure none
  | some sourceTree => do
      let entry ← self.computeNewRootWithChange toKey (some (getNonLeaf (.tree sourceTree)))
      let tree ← entryTree entry
      pure (some (.tree tree))

end WorkingTree

/-! ## Commits -/

/-- The pairs `bincode` writes for the nodes of a directory; `none` is the error of
`ensure_non_null_entry_hash`. -/
def serializeTree (heap : Heap) (tree : Tree) : Option (OrdMap KeyFragment (NodeKind × HashId)) :=
  tree.mapOption fun a => (heap.node a).entryHash.map fun id => ((heap.node a).nodeKind, id)

/-- `bincode::serialize`. -/
def serializeEntry : Entry → Call S MerkleError Serialized
  | .tree tree => do
      let heap ← Exec.gets World.heap
      let entries ← Exec.orFail .serializationError (serializeTree heap tree)
      pure (.tree entries)
  | .blob value => pure (.blob value)
  | .commit commit => pure (.commit commit)

/-- What `SerializingData` collects. -/
structure SerializingData where
  batch : List (HashId × Serialized)
  referencedOlderEntries : List HashId
deriving DecidableEq

namespace SerializingData

/-- Nothing collected. -/
def none : SerializingData := ⟨[], []⟩

instance : Append SerializingData :=
  ⟨fun a b => ⟨a.batch ++ b.batch, a.referencedOlderEntries ++ b.referencedOlderEntries⟩⟩

/-- One after the other. -/
def concat (l : List SerializingData) : SerializingData :=
  ⟨l.flatMap batch, l.flatMap referencedOlderEntries⟩

end SerializingData

/-- `add_serialized_entry`. -/
def addSerializedEntry (commitToStorage : Bool) (entryHash : HashId) (entry : Entry) :
    Call S MerkleError SerializingData :=
  if commitToStorage then do
    let bytes ← serializeEntry entry
    pure ⟨[(entryHash, bytes)], []⟩
  else pure .none

variable [Digest]

/-- `Node::entry_hash_id`, from the outside. -/
def nodeHashId (a : Addr) : Call S MerkleError HashId := do
  let depth ← Exec.gets fun w => w.heap.next
  Exec.mapErr .hashingError (entryHashId depth a)

/-- `add_older_entry`. -/
def addOlderEntry (commitToStorage : Bool) (a : Addr) : Call S MerkleError SerializingData :=
  if commitToStorage then do
    let id ← nodeHashId a
    pure ⟨[], [id]⟩
  else pure .none

/-- `get_entries_recursively`. -/
def getEntriesRecursively (commitToStorage : Bool) :
    Nat → Entry → HashId → Option Tree → Call S MerkleError SerializingData
  | 0, _, _, _ => Exec.abort
  | fuel + 1, entry, entryHash, root => do
      let data ← addSerializedEntry commitToStorage entryHash entry
      match entry with
      | .blob _ => pure data
      | .tree tree => do
          let below ← Exec.mapEach (fun p => do
            let childNode ← Call.readNode p.2
            if childNode.commited then addOlderEntry commitToStorage p.2
            else do
              Call.updateNode p.2 fun node => { node with commited := true }
              match childNode.entry with
              | none => pure .none
              | some entry => do
                  let id ← nodeHashId p.2
                  getEntriesRecursively commitToStorage fuel entry id none) tree.entries
          pure (data ++ .concat below)
      | .commit commit => do
          let entry ← match root with
            | some root => pure (.tree root)
            | none => getEntry commit.rootHash
          let below ← getEntriesRecursively commitToStorage fuel entry commit.rootHash none
          pure (data ++ below)

namespace WorkingTree

/-- `get_working_tree_root_hash`. -/
def getWorkingTreeRootHash (self : WorkingTree) : Call S MerkleError HashId := do
  let depth ← Exec.gets fun w => w.heap.next
  Exec.mapErr .hashingError (hashTree (entryHash depth) self.root)

/-- `hash`. -/
def hash (self : WorkingTree) : Call S MerkleError EntryHash := do
  let hashId ← self.getWorkingTreeRootHash
  let hash ← Exec.mapErr .dbError (Call.askRepo (getHash hashId))
  Exec.orFail (.entryNotFound hashId) hash

/-- `equal`. -/
def equal (self other : WorkingTree) : Call S MerkleError Bool := do
  let hash ← self.hash
  let otherHash ← other.hash
  pure (hash = otherHash)

/-- `prepare_commit`. -/
def prepareCommit (self : WorkingTree) (time : UInt64) (author message : String)
    (parentCommitHash : Option HashId) (commitToStorage : Bool) :
    Call S MerkleError (HashId × SerializingData) := do
  let rootHash ← self.getWorkingTreeRootHash
  let newCommit : Commit := ⟨parentCommitHash, rootHash, time, author, message⟩
  let commitHash ← Exec.mapErr .hashingError (hashCommit newCommit)
  let depth ← Exec.gets fun w => w.heap.next
  let data ← getEntriesRecursively commitToStorage (depth + 2) (.commit newCommit) commitHash
    (some self.root)
  pure (commitHash, data)

end WorkingTree

end NodeFuzzer
