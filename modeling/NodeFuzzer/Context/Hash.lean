import NodeFuzzer.Context.Inode

/-!
# Hashing entries

The functions of `hash/mod.rs` and the hashes of nodes.  A node keeps the id of its
hash once it is known, so that hashing a tree writes to the nodes of the tree as well
as to the store.

The functions call each other through the nodes of a directory.  Those on entries
take the function `nodeHash` for the hash of a node; `entryHashId` ties the knot with
a depth of calls.  A node without an id was made after the nodes of its entry, so that
the number of nodes bounds the depth.
-/

namespace NodeFuzzer

variable {S : Type} [KeyValueStoreBackend S]

/-- Update the cells of a node. -/
def Call.updateNode {ε : Type} (a : Addr) (f : Node → Node) : Call S ε Unit :=
  Exec.modify fun w => { w with heap := w.heap.set a (f (w.heap.node a)) }

/-- `store.get_hash`, with the error for an id that has none. -/
def getHashOr (error : HashingError) (id : HashId) : Call S HashingError EntryHash := do
  let hash ← Exec.mapErr .dbError (Call.askRepo (KeyValueStoreBackend.getHash id))
  Exec.orFail error hash

theorem getHashOr_eq {error : HashingError} {id : HashId} {h : EntryHash} {w : World S}
    (hash : KeyValueStoreBackend.getHash id w.repo = .ok (some h)) :
    getHashOr error id w = (.ok h, w) := by
  simp only [getHashOr, Call.askRepo, Exec.mapErr, Exec.query, hash, bind, Exec.bind]
  rfl

theorem wp_getHashOr {error : HashingError} {id : HashId} {h : EntryHash} {w : World S}
    {Q : EntryHash → World S → Prop} {E : World S → Prop}
    (hash : KeyValueStoreBackend.getHash id w.repo = .ok (some h)) (post : Q h w) :
    Exec.wp (getHashOr error id) Q E w := by
  unfold Exec.wp
  rw [getHashOr_eq hash]
  exact post

variable [Digest]

/-- Hash a string into a vacant entry of the store. -/
def putHash (string : Bytes) : Call S HashingError HashId :=
  Exec.mapErr .dbError
    (Call.onRepo (KeyValueStoreBackend.getVacantEntryHash (Digest.blake2b string)))

/-- `Inode`. -/
inductive Inode where
  | empty
  | value (entries : List (KeyFragment × Addr))
  | tree (depth : UInt32) (children : Nat) (pointers : List (Nat × HashId))

/-- What is hashed of a blob. -/
def blobString (blob : ContextValue) : Bytes := toBe 8 blob.length ++ blob

/-- What is hashed of a commit with the hashes of its root and of its parent. -/
def commitString (root : EntryHash) (parent : Option EntryHash) (commit : Commit) : Bytes :=
  toBe 8 ENTRY_HASH_LEN ++ root.bytes ++
    (match parent with
      | some hash => toBe 8 1 ++ toBe 8 hash.bytes.length ++ hash.bytes
      | none => toBe 8 0) ++
    toBe 8 commit.time.toNat ++
    toBe 8 (utf8 commit.author).length ++ utf8 commit.author ++
    toBe 8 (utf8 commit.message).length ++ utf8 commit.message

section Functions

variable (nodeHash : Addr → Call S HashingError EntryHash)

/-- The bindings of a directory, in order. -/
def hashNodes (entries : List (KeyFragment × Addr)) : Call S HashingError (List Binding) :=
  Exec.mapEach (fun p => do
    let node ← Call.readNode p.2
    let hash ← nodeHash p.2
    pure (p.1, node.nodeKind, hash)) entries

/-- `hash_long_inode`. -/
def hashLongInode : Inode → Call S HashingError HashId
  | .empty => Exec.fail .unexpectedEmptyInode
  | .value entries => do
      let bindings ← hashNodes nodeHash entries
      putHash (valueString bindings)
  | .tree depth children pointers => do
      let hashes ← Exec.mapEach (fun p => do
        let hash ← getHashOr (.hashIdNotFound p.2) p.2
        pure (p.1, hash)) pointers
      putHash (treeString depth children hashes)

/-- The pointer to an inode that is not empty. -/
def pushPointer (i : Fin 32) : Inode → Call S HashingError (Option (Nat × HashId))
  | .empty => pure none
  | nonEmpty => do
      let id ← hashLongInode nodeHash nonEmpty
      pure (some (i.val, id))

/-- `partition_entries`.  The depth is counted in 32 bits. -/
def partitionEntries (depth : UInt32) (entries : List (KeyFragment × Addr)) :
    Call S HashingError Inode :=
  if entries = [] then pure .empty
  else if entries.length ≤ 32 then pure (.value entries)
  else if _next : depth.toNat + 1 < 2 ^ 32 then do
    let pointers ← Exec.mapEach (fun i : Fin 32 => do
      let entriesAtDepthAndIndexI ← Exec.orAbort (atIndex depth i entries)
      let ti ← partitionEntries (depth + 1) entriesAtDepthAndIndexI
      pushPointer nodeHash i ti) (List.finRange 32)
    pure (.tree depth entries.length pointers.reduceOption)
  else Exec.abort
termination_by 2 ^ 32 - depth.toNat
decreasing_by
  rw [toNat_succ _next]
  omega

/-- `hash_short_inode`. -/
def hashShortInode (tree : Tree) : Call S HashingError HashId := do
  let bindings ← hashNodes nodeHash tree.entries
  putHash (shortString bindings)

/-- `hash_tree`. -/
def hashTree (tree : Tree) : Call S HashingError HashId :=
  if 256 < tree.len then do
    let inode ← partitionEntries nodeHash 0 tree.entries
    hashLongInode nodeHash inode
  else hashShortInode nodeHash tree

/-- `hash_blob`. -/
def hashBlob (blob : ContextValue) : Call S HashingError HashId := putHash (blobString blob)

/-- `hash_commit`. -/
def hashCommit (commit : Commit) : Call S HashingError HashId := do
  let root ← getHashOr (.valueExpected "root_hash") commit.rootHash
  match commit.parentCommitHash with
  | some id => do
      let parent ← getHashOr (.valueExpected "parent_commit_hash") id
      putHash (commitString root (some parent) commit)
  | none => putHash (commitString root none commit)

/-- `hash_entry`. -/
def hashEntry : Entry → Call S HashingError HashId
  | .commit commit => hashCommit commit
  | .tree tree => hashTree nodeHash tree
  | .blob blob => hashBlob blob

end Functions

/-- `Node::entry_hash_id`, with a bound on the depth of the calls. -/
def entryHashId : Nat → Addr → Call S HashingError HashId
  | 0, _ => Exec.abort
  | fuel + 1, a => do
      let node ← Call.readNode a
      match node.entryHash with
      | some id => pure id
      | none => do
          let entry ← Exec.orFail .missingEntry node.entry
          let id ← hashEntry (fun child => do
            let id ← entryHashId fuel child
            getHashOr (.hashIdNotFound id) id) entry
          Call.updateNode a fun node => { node with entryHash := some id }
          pure id

/-- `Node::entry_hash`. -/
def entryHash (fuel : Nat) (a : Addr) : Call S HashingError EntryHash := do
  let id ← entryHashId fuel a
  getHashOr (.hashIdNotFound id) id

end NodeFuzzer
