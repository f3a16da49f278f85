import Mathlib.Data.String.Basic
import Mathlib.Order.Lattice
import NodeFuzzer.Library.Exec
import NodeFuzzer.Library.OrdMap
import NodeFuzzer.Encoding.Types

/-!
# Entries of the context storage

The context is a Merkle tree of directories and values.  Its entries live in two
places.  A store maps a `HashId` to the hash of an entry and, once the entry is
committed, to its serialized form.  The working tree holds entries in nodes that
trees share: `Rc<Node>` with interior mutability is an address into a `Heap`.

A serialized entry is kept as what `bincode` encodes, so that decoding is
lossless.  The two hash functions of other crates are parameters (`Digest`).
-/

namespace NodeFuzzer

/-! ## Hashes and their ids -/

/-- Length of an entry hash. -/
def ENTRY_HASH_LEN : Nat := 32

/-- `EntryHash`: 32 bytes. -/
structure EntryHash where
  bytes : Bytes
  size : bytes.length = ENTRY_HASH_LEN
deriving DecidableEq

/-- `ContextHash`: the typed hash of a commit, of the same size. -/
abbrev ContextHash : Type := EntryHash

/-- The hash functions of other crates: BLAKE2b with 32 bytes of output, and the
64-bit hash `HashMap` keys are made with. -/
class Digest where
  blake2b : Bytes → EntryHash
  defaultHasher : Bytes → UInt64

/-- A small hash function to run examples with. -/
@[reducible] def sampleDigest : Digest where
  blake2b := fun s =>
    ⟨toBe 32 (s.foldl (fun n b => (n * 257 + b.toNat + 1) % 2 ^ 256) 0), toBe_length 32 _⟩
  defaultHasher := fun s => UInt64.ofNat (ofBe s)

/-- `HashId`: a positive number of 64 bits, the index of a hash plus one. -/
@[ext] structure HashId where
  val : Nat
  pos : 0 < val
  lt : val < 2 ^ 64
deriving DecidableEq

namespace HashId

theorem val_injective : Function.Injective val := fun _ _ h => HashId.ext h

instance : LinearOrder HashId := LinearOrder.lift' val val_injective

/-- `TryInto<usize>`. -/
def index (id : HashId) : Nat := id.val - 1

/-- `TryFrom<usize>`; `none` is `HashIdError`. -/
def ofIndex (i : Nat) : Option HashId :=
  if h : i + 1 < 2 ^ 64 then some ⟨i + 1, Nat.succ_pos i, h⟩ else none

/-- The bit that marks the ids of a read-only runner. -/
def READONLY : Nat := 2 ^ 63

/-- `set_readonly_runner`. -/
def setReadonlyRunner (id : HashId) : HashId :=
  if h : id.val < READONLY then
    ⟨id.val + READONLY, Nat.add_pos_left id.pos _, by unfold READONLY at h ⊢; omega⟩
  else id

/-- `get_readonly_id`.  The outer `none` is `HashIdError`. -/
def getReadonlyId (id : HashId) : Option (Option HashId) :=
  if h : READONLY ≤ id.val then
    if h' : id.val = READONLY then none
    else some (some ⟨id.val - READONLY, by omega, by have := id.lt; omega⟩)
  else some none

theorem index_injective {a b : HashId} (h : a.index = b.index) : a = b := by
  have ha := a.pos
  have hb := b.pos
  unfold index at h
  exact HashId.ext (by omega)

theorem ofIndex_eq_some {i : Nat} {id : HashId} : ofIndex i = some id ↔ id.index = i := by
  constructor
  · intro h
    unfold ofIndex at h
    split at h
    · cases h
      exact Nat.add_sub_cancel i 1
    · cases h
  · intro h
    subst h
    have hpos := id.pos
    have hlt := id.lt
    have hval : id.val - 1 + 1 = id.val := by omega
    unfold ofIndex index
    rw [dif_pos (by omega)]
    exact congrArg some (HashId.ext hval)

end HashId

/-! ## Entries -/

/-- `KeyFragment`: a name in a directory. -/
abbrev KeyFragment : Type := String

/-- `ContextKey`: a path. -/
abbrev ContextKey : Type := List KeyFragment

/-- `ContextValue`. -/
abbrev ContextValue : Type := Bytes

/-- `NodeKind`. -/
inductive NodeKind where
  | nonLeaf
  | leaf
deriving DecidableEq, Repr

/-- `Commit`. -/
structure Commit where
  parentCommitHash : Option HashId
  rootHash : HashId
  time : UInt64
  author : String
  message : String
deriving DecidableEq

/-- What `bincode` encodes of an entry: a node of a tree is its kind and its id.
Bytes that do not decode are `invalid`. -/
inductive Serialized where
  | tree (entries : OrdMap KeyFragment (NodeKind × HashId))
  | blob (value : ContextValue)
  | commit (commit : Commit)
  | invalid
deriving DecidableEq

/-- The ids below an entry, which `mark_reused` visits. -/
def Serialized.references : Serialized → List HashId
  | .tree entries => entries.entries.map fun p => p.2.2
  | .blob _ => []
  | .commit c => [c.rootHash]
  | .invalid => []

/-- The address of an `Rc<Node>`. -/
abbrev Addr : Type := Nat

/-- `Tree`: the nodes of a directory, by name. -/
abbrev Tree : Type := OrdMap KeyFragment Addr

/-- `Entry`. -/
inductive Entry where
  | tree (tree : Tree)
  | blob (value : ContextValue)
  | commit (commit : Commit)
deriving DecidableEq

/-- `Node`. -/
structure Node where
  nodeKind : NodeKind
  /-- True when the entry has already been commited. -/
  commited : Bool
  entryHash : Option HashId
  entry : Option Entry
deriving DecidableEq

instance : Inhabited Node := ⟨⟨.leaf, false, none, none⟩⟩

/-- The nodes that were ever made; `next` is the address of the next one. -/
structure Heap where
  next : Addr
  node : Addr → Node

/-- Nothing was made yet. -/
def Heap.empty : Heap := ⟨0, fun _ => default⟩

/-- `Rc::new`. -/
def Heap.alloc (heap : Heap) (node : Node) : Heap :=
  ⟨heap.next + 1, Function.update heap.node heap.next node⟩

/-- One node after the other. -/
def Heap.allocAll (heap : Heap) (nodes : List Node) : Heap :=
  ⟨heap.next + nodes.length, fun a =>
    if a < heap.next then heap.node a else (nodes[a - heap.next]?).getD (heap.node a)⟩

/-- Write through the cells of a node. -/
def Heap.set (heap : Heap) (a : Addr) (node : Node) : Heap :=
  ⟨heap.next, Function.update heap.node a node⟩

@[simp] theorem Heap.alloc_next (heap : Heap) (node : Node) :
    (heap.alloc node).next = heap.next + 1 := rfl

@[simp] theorem Heap.alloc_node_self (heap : Heap) (node : Node) :
    (heap.alloc node).node heap.next = node := Function.update_self ..

theorem Heap.alloc_node_of_ne {heap : Heap} {a : Addr} (h : a ≠ heap.next) (node : Node) :
    (heap.alloc node).node a = heap.node a := Function.update_of_ne h ..

theorem Heap.alloc_node_of_lt {heap : Heap} {a : Addr} (h : a < heap.next) (node : Node) :
    (heap.alloc node).node a = heap.node a := Function.update_of_ne (Nat.ne_of_lt h) ..

@[simp] theorem Heap.allocAll_next (heap : Heap) (nodes : List Node) :
    (heap.allocAll nodes).next = heap.next + nodes.length := rfl

theorem Heap.allocAll_node_of_lt {heap : Heap} {a : Addr} (h : a < heap.next)
    (nodes : List Node) : (heap.allocAll nodes).node a = heap.node a := if_pos h

theorem Heap.allocAll_node_add {heap : Heap} {nodes : List Node} {i : Nat} {node : Node}
    (h : nodes[i]? = some node) : (heap.allocAll nodes).node (heap.next + i) = node := by
  have hlt : ¬ heap.next + i < heap.next := Nat.not_lt.mpr (Nat.le_add_right _ _)
  show (if heap.next + i < heap.next then _ else (nodes[heap.next + i - heap.next]?).getD _) = node
  rw [if_neg hlt, Nat.add_sub_cancel_left, h]
  rfl

@[simp] theorem Heap.set_next (heap : Heap) (a : Addr) (node : Node) :
    (heap.set a node).next = heap.next := rfl

@[simp] theorem Heap.set_node_self (heap : Heap) (a : Addr) (node : Node) :
    (heap.set a node).node a = node := Function.update_self ..

theorem Heap.set_node_of_ne {heap : Heap} {a b : Addr} (h : b ≠ a) (node : Node) :
    (heap.set a node).node b = heap.node b := Function.update_of_ne h ..

/-! ## Errors -/

/-- The errors of `DBError` a backend returns. -/
inductive DBError where
  | foundUnexpectedStructure (sought found : String)
  | serializationError
  | ipcAccessError
  | missingEntry (hashId : HashId)
  | hashIdFailed
deriving DecidableEq

/-- `HashingError`.  Errors of the hash function and of the writer into it, which
have no cause here, are left out. -/
inductive HashingError where
  | valueExpected (name : String)
  | unexpectedEmptyInode
  | missingEntry
  | dbError (error : DBError)
  | hashIdNotFound (hashId : HashId)
deriving DecidableEq

/-- `MerkleError`, less the errors of locks and of conversions that cannot fail. -/
inductive MerkleError where
  | dbError (error : DBError)
  | serializationError
  | valueIsNotABlob (key : String)
  | foundUnexpectedStructure (sought found : String)
  | entryNotFound (hashId : HashId)
  | valueNotFound (key : String)
  | keyEmpty
  | hashingError (error : HashingError)
  | invalidState (text : String)
deriving DecidableEq

/-- `ContextError`, likewise. -/
inductive ContextError where
  | merkleStorageError (error : MerkleError)
  | invalidCommitDate
  | dbError (error : DBError)
  | garbageCollectionError
deriving DecidableEq

/-! ## The store -/

/-- `KeyValueStoreBackend` with `GarbageCollector`.  `getVacantEntryHash` is
`get_vacant_entry_hash` and the `write_with` that every caller makes next. -/
class KeyValueStoreBackend (S : Type) where
  getHash : HashId → S → Except DBError (Option EntryHash)
  getValue : HashId → S → Except DBError (Option Serialized)
  contains : HashId → S → Except DBError Bool
  getContextHash : ContextHash → S → Except DBError (Option HashId)
  getVacantEntryHash : EntryHash → Exec S DBError HashId
  writeBatch : List (HashId × Serialized) → Exec S DBError Unit
  putContextHash : HashId → Exec S DBError Unit
  clearEntries : Exec S DBError Unit
  blockApplied : List HashId → Exec S DBError Unit
  newCycleStarted : Exec S DBError Unit

/-- The nodes and the store. -/
structure World (S : Type) where
  heap : Heap
  repo : S

/-- A call on the nodes and the store. -/
abbrev Call (S ε α : Type) : Type := Exec (World S) ε α

namespace Call

variable {S ε δ α : Type}

/-- A call on the store. -/
def onRepo (x : Exec S ε α) : Call S ε α :=
  Exec.onPart World.repo (fun s w => { w with repo := s }) x

/-- A query of the store. -/
def askRepo (f : S → Except ε α) : Call S ε α := Exec.query fun w => f w.repo

/-- Read a node. -/
def readNode (a : Addr) : Call S ε Node := Exec.gets fun w => w.heap.node a

/-- `Rc::new`. -/
def newNode (node : Node) : Call S ε Addr := fun w =>
  (.ok w.heap.next, { w with heap := w.heap.alloc node })

end Call

end NodeFuzzer
