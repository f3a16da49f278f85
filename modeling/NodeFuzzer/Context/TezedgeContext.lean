import NodeFuzzer.Context.WorkingTree

/-!
# Contexts

`TezedgeContext` and `TezedgeIndex::checkout`: a working tree together with the commit
it was checked out from.  A `Session` is a process that uses a store: it keeps every
context and every tree it was ever given, and works on any of them by number.
-/

namespace NodeFuzzer

open KeyValueStoreBackend

/-- `TezedgeContext`. -/
structure TezedgeContext where
  parentCommitHash : Option HashId
  tree : WorkingTree
deriving DecidableEq

variable {S : Type} [KeyValueStoreBackend S]

/-- `checkout`. -/
def TezedgeIndex.checkout (contextHash : ContextHash) :
    Call S ContextError (Option TezedgeContext) := do
  let hashId ← Exec.mapErr .dbError (Call.askRepo (getContextHash contextHash))
  match hashId with
  | none => pure none
  | some hashId => do
      let commit ← Exec.mapErr .dbError (TezedgeIndex.findCommit hashId)
      match commit with
      | none => pure none
      | some commit => do
          let tree ← Exec.mapErr .dbError (TezedgeIndex.findTree commit.rootHash)
          match tree with
          | none => pure none
          | some tree => pure (some ⟨some hashId, .tree tree⟩)

namespace TezedgeContext

/-- `TezedgeContext::new` without a commit. -/
def new : TezedgeContext := ⟨none, .new⟩

/-- `with_tree`. -/
def withTree (self : TezedgeContext) (tree : WorkingTree) : TezedgeContext :=
  { self with tree := tree }

/-- `add`. -/
def add (self : TezedgeContext) (key : ContextKey) (value : ContextValue) :
    Call S ContextError TezedgeContext := do
  let tree ← Exec.mapErr .merkleStorageError (self.tree.add key value)
  pure (self.withTree tree)

/-- `delete`. -/
def delete (self : TezedgeContext) (keyPrefixToDelete : ContextKey) :
    Call S ContextError TezedgeContext := do
  let tree ← Exec.mapErr .merkleStorageError (self.tree.delete keyPrefixToDelete)
  pure (self.withTree tree)

/-- `copy`. -/
def copy (self : TezedgeContext) (fromKey toKey : ContextKey) :
    Call S ContextError (Option TezedgeContext) := do
  let tree ← Exec.mapErr .merkleStorageError (self.tree.copy fromKey toKey)
  pure (tree.map self.withTree)

/-- `add_tree`. -/
def addTree (self : TezedgeContext) (key : ContextKey) (tree : WorkingTree) :
    Call S ContextError TezedgeContext := do
  let tree ← Exec.mapErr .merkleStorageError (self.tree.addTree key tree)
  pure (self.withTree tree)

/-- `find_tree`. -/
def findTree (self : TezedgeContext) (key : ContextKey) :
    Call S ContextError (Option WorkingTree) :=
  Exec.mapErr .merkleStorageError (self.tree.findTree key)

/-- `find`. -/
def find (self : TezedgeContext) (key : ContextKey) :
    Call S ContextError (Option ContextValue) :=
  Exec.mapErr .merkleStorageError (self.tree.find key)

/-- `mem`. -/
def mem (self : TezedgeContext) (key : ContextKey) : Call S ContextError Bool :=
  Exec.mapErr .merkleStorageError (self.tree.mem key)

/-- `mem_tree`. -/
def memTree (self : TezedgeContext) (key : ContextKey) : Call S ContextError Bool :=
  Exec.mapErr .merkleStorageError (self.tree.memTree key)

/-- `list`. -/
def list (self : TezedgeContext) (offset length : Option Nat) (key : ContextKey) :
    Call S ContextError (List (KeyFragment × WorkingTree)) :=
  Exec.mapErr .merkleStorageError (self.tree.list offset length key)

/-- `get_commit_hash`. -/
def getCommitHash (commitHashId : HashId) : Call S ContextError ContextHash := do
  let hash ← Exec.mapErr .dbError (Call.askRepo (getHash commitHashId))
  Exec.orFail (.merkleStorageError (.entryNotFound commitHashId)) hash

/-- A call of the store. -/
def onStore {α : Type} (x : Exec S DBError α) : Call S ContextError α :=
  Exec.mapErr .dbError (Call.onRepo x)

/-- A call of its garbage collector. -/
def onCollector {α : Type} (x : Exec S DBError α) : Call S ContextError α :=
  Exec.mapErr (fun _ => .garbageCollectionError) (Call.onRepo x)

/-- `date.try_into()`. -/
def commitTime (date : Int64) : Option UInt64 := if 0 ≤ date then some date.toUInt64 else none

variable [Digest]

/-- `get_merkle_root`. -/
def getMerkleRoot (self : TezedgeContext) : Call S ContextError EntryHash :=
  Exec.mapErr .merkleStorageError self.tree.hash

/-- `commit`. -/
def commit (self : TezedgeContext) (author message : String) (date : Int64) :
    Call S ContextError ContextHash := do
  let date ← Exec.orFail .invalidCommitDate (commitTime date)
  let (commitHashId, data) ← Exec.mapErr .merkleStorageError
    (self.tree.prepareCommit date author message self.parentCommitHash true)
  onStore (writeBatch data.batch)
  onStore (putContextHash commitHashId)
  onCollector (blockApplied data.referencedOlderEntries)
  let commitHash ← getCommitHash commitHashId
  onStore clearEntries
  pure commitHash

/-- `hash`. -/
def hash (self : TezedgeContext) (author message : String) (date : Int64) :
    Call S ContextError ContextHash := do
  let date ← Exec.orFail .invalidCommitDate (commitTime date)
  let (commitHashId, _) ← Exec.mapErr .merkleStorageError
    (self.tree.prepareCommit date author message self.parentCommitHash false)
  let commitHash ← getCommitHash commitHashId
  onStore clearEntries
  pure commitHash

end TezedgeContext

/-! ## Sessions -/

/-- The nodes, the store, and what the process was given so far. -/
structure Session (S : Type) where
  world : World S
  contexts : List TezedgeContext
  trees : List WorkingTree

/-- What the process may ask for.  Contexts and trees are named by their number. -/
inductive Op where
  | new
  | checkout (contextHash : ContextHash)
  | add (context : Nat) (key : ContextKey) (value : ContextValue)
  | delete (context : Nat) (key : ContextKey)
  | copy (context : Nat) (fromKey toKey : ContextKey)
  | addTree (context : Nat) (key : ContextKey) (tree : Nat)
  | findTree (context : Nat) (key : ContextKey)
  | find (context : Nat) (key : ContextKey)
  | mem (context : Nat) (key : ContextKey)
  | memTree (context : Nat) (key : ContextKey)
  | getMerkleRoot (context : Nat)
  | hash (context : Nat) (author message : String) (date : Int64)
  | commit (context : Nat) (author message : String) (date : Int64)
  | cycleStarted
deriving DecidableEq

/-- What it is answered. -/
inductive Reply where
  | done
  | absent
  | value (value : Option ContextValue)
  | flag (flag : Bool)
  | root (hash : EntryHash)
  | contextHash (hash : ContextHash)
deriving DecidableEq

namespace Session

/-- A call on the nodes and the store. -/
def onWorld {ε α : Type} (x : Call S ε α) : Exec (Session S) ε α :=
  Exec.onPart world (fun w s => { s with world := w }) x

/-- The context with a number; nothing can be asked of one that is not there. -/
def withContext (context : Nat) (f : TezedgeContext → Exec (Session S) ContextError Reply) :
    Exec (Session S) ContextError Reply := fun s =>
  match s.contexts[context]? with
  | none => (.ok .absent, s)
  | some c => f c s

/-- Keep a context. -/
def keepContext (c : TezedgeContext) : Exec (Session S) ContextError Reply := do
  Exec.modify fun s => { s with contexts := s.contexts ++ [c] }
  pure .done

/-- Keep a tree. -/
def keepTree (t : WorkingTree) : Exec (Session S) ContextError Reply := do
  Exec.modify fun s => { s with trees := s.trees ++ [t] }
  pure .done

/-- Keep what was found. -/
def keepFound {α : Type} (keep : α → Exec (Session S) ContextError Reply) :
    Option α → Exec (Session S) ContextError Reply
  | none => pure .absent
  | some a => keep a

variable [Digest]

/-- Do what is asked. -/
def perform : Op → Exec (Session S) ContextError Reply
  | .new => keepContext .new
  | .checkout contextHash => do
      let c ← onWorld (TezedgeIndex.checkout contextHash)
      keepFound keepContext c
  | .add context key value => withContext context fun c => do
      let c ← onWorld (c.add key value)
      keepContext c
  | .delete context key => withContext context fun c => do
      let c ← onWorld (c.delete key)
      keepContext c
  | .copy context fromKey toKey => withContext context fun c => do
      let c ← onWorld (c.copy fromKey toKey)
      keepFound keepContext c
  | .addTree context key tree => withContext context fun c => do
      let trees ← Exec.gets trees
      match trees[tree]? with
      | none => pure .absent
      | some t => do
          let c ← onWorld (c.addTree key t)
          keepContext c
  | .findTree context key => withContext context fun c => do
      let t ← onWorld (c.findTree key)
      keepFound keepTree t
  | .find context key => withContext context fun c => do
      let value ← onWorld (c.find key)
      pure (.value value)
  | .mem context key => withContext context fun c => do
      let flag ← onWorld (c.mem key)
      pure (.flag flag)
  | .memTree context key => withContext context fun c => do
      let flag ← onWorld (c.memTree key)
      pure (.flag flag)
  | .getMerkleRoot context => withContext context fun c => do
      let hash ← onWorld c.getMerkleRoot
      pure (.root hash)
  | .hash context author message date => withContext context fun c => do
      let hash ← onWorld (c.hash author message date)
      pure (.contextHash hash)
  | .commit context author message date => withContext context fun c => do
      let hash ← onWorld (c.commit author message date)
      pure (.contextHash hash)
  | .cycleStarted => do
      onWorld (TezedgeContext.onCollector newCycleStarted)
      pure .done

/-- The state after some calls. -/
def after (s : Session S) (ops : List Op) : Session S :=
  ops.foldl (fun s op => (perform op s).2) s

end Session

end NodeFuzzer
