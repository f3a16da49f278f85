import Mathlib.Data.List.Forall2
import NodeFuzzer.Context.Contents
import NodeFuzzer.Context.Laws

/-!
# Folding over a tree

`fold_iter` returns an iterator with a stack of levels.  A level yields its own tree
first and then goes through its nodes, each of which becomes a level on top of it.  Two
predicates of the depth say what is yielded and below what the iterator goes on.

The iterator is a loop that ends when a tree is finite, so that `next` has a bound on
its rounds, and `collect` one on the calls of `next`.
-/

namespace NodeFuzzer

variable {S : Type} [KeyValueStoreBackend S]

/-! ## The iterator -/

/-- `FoldDepth`. -/
inductive FoldDepth where
  | eq (n : Int64)
  | lt (n : Int64)
  | le (n : Int64)
  | gt (n : Int64)
  | ge (n : Int64)
deriving DecidableEq

namespace FoldDepth

/-- `should_apply`.  Levels are counted, so that a depth is a number without a bound. -/
def shouldApply (depth : Int) : FoldDepth → Bool
  | eq n => depth = n.toInt
  | lt n => depth < n.toInt
  | le n => depth ≤ n.toInt
  | gt n => depth > n.toInt
  | ge n => depth ≥ n.toInt

/-- `should_continue`. -/
def shouldContinue (depth : Int) : FoldDepth → Bool
  | eq n => depth < n.toInt
  | lt n => depth < (n - 1).toInt
  | le n => depth < n.toInt
  | gt _ => true
  | ge _ => true

/-- The number a depth is compared with. -/
def bound : FoldDepth → Int64
  | eq n => n
  | lt n => n
  | le n => n
  | gt n => n
  | ge n => n

end FoldDepth

/-- `TreeWalkerLevel`. -/
structure TreeWalkerLevel where
  key : ContextKey
  root : WorkingTree
  currentDepth : Int
  yieldSelf : Bool
  childrenIter : Option (List (KeyFragment × Addr))

/-- `TreeWalkerLevel::new`. -/
def TreeWalkerLevel.new (key : ContextKey) (root : WorkingTree) (currentDepth : Int)
    (depth : Option FoldDepth) : TreeWalkerLevel where
  key := key
  root := root
  currentDepth := currentDepth
  yieldSelf := (depth.map (FoldDepth.shouldApply currentDepth)).getD true
  childrenIter :=
    if (depth.map (FoldDepth.shouldContinue currentDepth)).getD true then
      match root with
      | .tree tree => some tree.entries
      | .value _ => none
    else none

/-- `TreeWalker`; the top of the stack is first. -/
structure TreeWalker where
  depth : Option FoldDepth
  stack : List TreeWalkerLevel

/-- What the iterator yields. -/
abbrev TreeWalker.Item : Type := ContextKey × WorkingTree

namespace TreeWalker

/-- `TreeWalker::new`. -/
def new (key : ContextKey) (root : WorkingTree) (depth : Option FoldDepth) : TreeWalker :=
  ⟨depth, [.new key root 0 depth]⟩

/-- `TreeWalker::empty`. -/
def empty : TreeWalker := ⟨none, []⟩

end TreeWalker

/-- `entry_value`. -/
def entryValue : Entry → Call S MerkleError ContextValue
  | .blob blob => pure blob
  | .tree _ => Exec.fail (.foundUnexpectedStructure "blob" "tree")
  | .commit _ => Exec.fail (.foundUnexpectedStructure "blob" "commit")

/-- `node_tree`. -/
def nodeTree (a : Addr) : Call S MerkleError WorkingTree := do
  let entry ← TezedgeIndex.nodeEntry a
  let node ← Call.readNode a
  match node.nodeKind with
  | .nonLeaf => do
      let tree ← entryTree entry
      pure (.tree tree)
  | .leaf => do
      let value ← entryValue entry
      pure (.value value)

namespace TreeWalker

/-- `next`, with a bound on the rounds of its loop. -/
def next : Nat → TreeWalker → Call S MerkleError (Option Item × TreeWalker)
  | 0, _ => Exec.abort
  | fuel + 1, self =>
      match self.stack with
      | [] => pure (none, self)
      | currentLevel :: below =>
          if currentLevel.yieldSelf then
            pure (some (currentLevel.key, currentLevel.root),
              { self with stack := { currentLevel with yieldSelf := false } :: below })
          else match currentLevel.childrenIter with
            | some ((k, node) :: iter) => do
                let root ← Exec.handle (fun _ : MerkleError => pure none) do
                  let root ← nodeTree node
                  pure (some root)
                let level := { currentLevel with childrenIter := some iter }
                match root with
                | some root =>
                    let child := TreeWalkerLevel.new (currentLevel.key ++ [k]) root
                      (currentLevel.currentDepth + 1) self.depth
                    next fuel { self with stack := child :: level :: below }
                | none => next fuel { self with stack := level :: below }
            | _ => next fuel { self with stack := below }

/-- Everything the iterator yields, with bounds on the rounds of each call and on the
number of calls. -/
def collect (rounds : Nat) : Nat → TreeWalker → Call S MerkleError (List Item)
  | 0, _ => Exec.abort
  | calls + 1, self => do
      let (item, self) ← next rounds self
      match item with
      | none => pure []
      | some item => do
          let rest ← collect rounds calls self
          pure (item :: rest)

end TreeWalker

/-- `fold_iter`. -/
def WorkingTree.foldIter (self : WorkingTree) (depth : Option FoldDepth) (key : ContextKey) :
    Call S MerkleError TreeWalker := do
  let root ← self.findTree key
  match root with
  | some root => pure (.new [] root depth)
  | none => pure .empty

/-! ## The depths -/

namespace FoldDepth

theorem toInt_sub_one {n : Int64} (h : Int64.minValue < n) : (n - 1).toInt = n.toInt - 1 := by
  have above : Int64.minValue.toInt < n.toInt := Int64.lt_iff_toInt_lt.mp h
  have below := n.toInt_lt
  have min : Int64.minValue.toInt = -2 ^ 63 := rfl
  rw [Int64.toInt_sub, show (1 : Int64).toInt = 1 from rfl, Int.bmod_eq_of_le] <;> omega

/-- Nothing below a directory is yielded when the iterator does not go on. -/
theorem shouldContinue_of_shouldApply {d : FoldDepth} {depth deeper : Int}
    (bound : Int64.minValue < d.bound) (h : depth < deeper)
    (apply : d.shouldApply deeper = true) : d.shouldContinue depth = true := by
  cases d with
  | lt n =>
      have sub : (n - 1).toInt = n.toInt - 1 := toInt_sub_one bound
      simp only [shouldApply, shouldContinue, decide_eq_true_eq] at apply ⊢
      rw [sub]
      omega
  | _ =>
      simp only [shouldApply, shouldContinue, decide_eq_true_eq] at apply ⊢
      try omega

end FoldDepth

/-- Whether a tree at a depth is yielded. -/
def applies (depth : Option FoldDepth) (d : Int) : Bool :=
  (depth.map (FoldDepth.shouldApply d)).getD true

/-- Whether the iterator goes on below a depth. -/
def continues (depth : Option FoldDepth) (d : Int) : Bool :=
  (depth.map (FoldDepth.shouldContinue d)).getD true

/-- What a fold lists of contents that are at a depth. -/
def folded (depth : Option FoldDepth) (d : Int) (c : Contents) : List (ContextKey × Contents) :=
  c.walk.filter fun p => applies depth (d + p.1.length)

theorem applies_of_not_continues {depth : Option FoldDepth} {d deeper : Int}
    (bound : ∀ f ∈ depth, Int64.minValue < f.bound) (stop : continues depth d = false)
    (h : d < deeper) : applies depth deeper = false := by
  cases depth with
  | none => cases stop
  | some f =>
      by_contra apply
      have go := FoldDepth.shouldContinue_of_shouldApply (bound f rfl) h (by simpa [applies] using apply)
      simp [continues, go] at stop

theorem folded_value (depth : Option FoldDepth) (d : Int) (v : ContextValue) :
    folded depth d (.value v) = if applies depth d then [([], .value v)] else [] := by
  simp [folded, NameTree.walk, List.filter_cons]

/-- The part of a fold that is below one name. -/
def foldedBelow (depth : Option FoldDepth) (d : Int) (child : KeyFragment → Contents)
    (name : KeyFragment) : List (ContextKey × Contents) :=
  (folded depth (d + 1) (child name)).map fun p => (name :: p.1, p.2)

theorem folded_directory (depth : Option FoldDepth) (d : Int) (names : Finset KeyFragment)
    (child : KeyFragment → Contents) : folded depth d (.directory names child) =
      (if applies depth d then [([], .directory names child)] else []) ++
        (names.sort (· ≤ ·)).flatMap (foldedBelow depth d child) := by
  rw [folded, NameTree.walk, List.filter_cons, List.filter_flatMap]
  have below : (fun name => ((child name).walk.map fun p => (name :: p.1, p.2)).filter
      fun p => applies depth (d + p.1.length)) = foldedBelow depth d child := by
    funext name
    rw [foldedBelow, folded, List.filter_map]
    refine congrArg (List.map _) (List.filter_congr ?_)
    intro p _
    have deeper : d + ((p.1.length + 1 : Nat) : Int) = d + 1 + p.1.length := by omega
    simp only [Function.comp_apply, List.length_cons, deeper]
  rw [below]
  cases happly : applies depth d <;> simp [happly]

/-- Where the iterator does not go on, nothing below is listed. -/
theorem flatMap_foldedBelow_of_stop {depth : Option FoldDepth} {d : Int}
    (bound : ∀ f ∈ depth, Int64.minValue < f.bound) (stop : continues depth d = false)
    (names : List KeyFragment) (child : KeyFragment → Contents) :
    names.flatMap (foldedBelow depth d child) = [] := by
  rw [List.flatMap_eq_nil_iff]
  intro name _
  have none : folded depth (d + 1) (child name) = [] := by
    rw [folded, List.filter_eq_nil_iff]
    intro p _
    have deeper : d < d + 1 + (p.1.length : Int) := by omega
    rw [applies_of_not_continues bound stop deeper]
    exact nofun
  rw [foldedBelow, none, List.map_nil]

/-! ## Trees as they are yielded -/

variable {w w' w'' : World S}

/-- What a tree that is handed out shows. -/
def WorkingTree.Shows (w : World S) : WorkingTree → Contents → Prop
  | .tree root, c => Within w.heap root ∧ NodeFuzzer.Shows w (treeContent root) c
  | .value v, c => c = .value v

theorem Reads.showsWorkingTree {t : WorkingTree} {c : Contents} (reads : Reads w w')
    (h : t.Shows w c) : t.Shows w' c := by
  cases t with
  | tree tree => exact ⟨h.1.mono reads.next, reads.showsTree h.1 h.2⟩
  | value v => exact h

/-- A node is loaded, and `node_tree` makes of it what `list` does. -/
theorem nodeTree_shows {a : Addr} {c : Contents} (tight : Tight w.heap) (kinded : Kinded w)
    (ha : a < w.heap.next) (shows : Shows w (content w (.node a)) c) :
    ∃ entry t w', TezedgeIndex.nodeEntry a w = (.ok entry, w') ∧
      nodeTree a w = (.ok t, w') ∧ (∀ name, WorkingTree.childTree name entry = some (name, t)) ∧
      Reads w w' ∧ Kinded w' ∧ t.Shows w' c := by
  have here := shows.nil
  have spec := Exec.wp_and (nodeEntry_reads tight ha) (nodeEntry_unpacks ha)
  obtain ⟨entry, w', run, ⟨reads, within, same⟩, unpacks⟩ := Exec.wp_returns
    (Exec.wp_mono spec (fun _ _ h => h) fun _ h => by
      rw [h.1] at here
      exact answerOf_ne_broken _ here.symm)
  have kinded' := unpacks.kinded reads kinded
  have loaded : ∀ key, answerIn w' (entryContent entry) key = answerOf (c.get key) :=
    fun key => (same key).trans (shows key)
  have suits := kinded'.nodes (Nat.lt_of_lt_of_le ha reads.next)
  rw [reads.answer a ha, ← same] at suits
  have tree : ∀ {t}, (match (w'.heap.node a).nodeKind with
      | .nonLeaf => (do
          let tree ← entryTree entry
          pure (.tree tree) : Call S MerkleError WorkingTree)
      | .leaf => do
          let value ← entryValue entry
          pure (.value value)) w' = (.ok t, w') → nodeTree a w = (.ok t, w') := by
    intro t h
    rw [nodeTree]
    exact (Exec.bind_ok run).trans h
  cases entry with
  | tree root =>
      refine ⟨.tree root, .tree root, w', run, tree ?_, fun _ => rfl, reads, kinded',
        within rfl, loaded⟩
      have kind : (w'.heap.node a).nodeKind = .nonLeaf := suits
      rw [kind]
      rfl
  | blob v =>
      refine ⟨.blob v, .value v, w', run, tree ?_, fun _ => rfl, reads, kinded', ?_⟩
      · have kind : (w'.heap.node a).nodeKind = .leaf := suits
        rw [kind]
        rfl
      · have value := loaded []
        rw [NameTree.get_nil] at value
        exact Option.some.inj (answerOf_eq_value.mp value.symm)
  | commit commit => exact absurd (loaded []).symm (answerOf_ne_broken _)

/-! ## The run of the iterator -/

/-- The rounds from a stack until the iterator is done, and what they yield. -/
inductive Yields (depth : Option FoldDepth) :
    List TreeWalkerLevel → World S → List TreeWalker.Item → World S → Prop
  | done (w : World S) : Yields depth [] w [] w
  | self {level : TreeWalkerLevel} {below : List TreeWalkerLevel} {w w' : World S}
      {items : List TreeWalker.Item} (yieldSelf : level.yieldSelf = true)
      (rest : Yields depth ({ level with yieldSelf := false } :: below) w items w') :
      Yields depth (level :: below) w ((level.key, level.root) :: items) w'
  | push {level : TreeWalkerLevel} {below : List TreeWalkerLevel} {w w₁ w' : World S}
      {items : List TreeWalker.Item} {k : KeyFragment} {node : Addr}
      {iter : List (KeyFragment × Addr)} {root : WorkingTree} (yielded : level.yieldSelf = false)
      (children : level.childrenIter = some ((k, node) :: iter))
      (run : nodeTree node w = (.ok root, w₁))
      (rest : Yields depth (.new (level.key ++ [k]) root (level.currentDepth + 1) depth ::
        { level with childrenIter := some iter } :: below) w₁ items w') :
      Yields depth (level :: below) w items w'
  | pop {level : TreeWalkerLevel} {below : List TreeWalkerLevel} {w w' : World S}
      {items : List TreeWalker.Item} (yielded : level.yieldSelf = false)
      (children : level.childrenIter = none ∨ level.childrenIter = some [])
      (rest : Yields depth below w items w') : Yields depth (level :: below) w items w'

/-- The items list what a fold lists, under a key. -/
def Listed (w : World S) (key : ContextKey) (items : List TreeWalker.Item)
    (l : List (ContextKey × Contents)) : Prop :=
  List.Forall₂ (fun item p => item.1 = key ++ p.1 ∧ item.2.Shows w p.2) items l

theorem Listed.reads {key : ContextKey} {items : List TreeWalker.Item}
    {l : List (ContextKey × Contents)} (h : Listed w key items l) (reads : Reads w w') :
    Listed w' key items l :=
  h.imp fun _ _ h => ⟨h.1, reads.showsWorkingTree h.2⟩

theorem Listed.below {key : ContextKey} {name : KeyFragment} {items : List TreeWalker.Item}
    {depth : Option FoldDepth} {d : Int} {child : KeyFragment → Contents}
    (h : Listed w (key ++ [name]) items (folded depth (d + 1) (child name))) :
    Listed w key items (foldedBelow depth d child name) := by
  rw [Listed, foldedBelow, List.forall₂_map_right_iff]
  refine h.imp ?_
  intro item p hp
  rw [List.append_assoc] at hp
  exact hp

/-- From a tree on top of the stack the iterator yields what a fold lists, and goes on
with the rest of the stack. -/
def FoldsTo (S : Type) [KeyValueStoreBackend S] (depth : Option FoldDepth) (c : Contents) : Prop :=
  ∀ {w : World S} {root : WorkingTree} (key : ContextKey) (d : Int), Tight w.heap → Kinded w →
    root.Shows w c → ∃ own w', Reads w w' ∧ Kinded w' ∧ Listed w' key own (folded depth d c) ∧
      ∀ {below items w''}, Yields depth below w' items w'' →
        Yields depth (.new key root d depth :: below) w (own ++ items) w''

/-- The nodes of a level, one after the other. -/
theorem yields_children {depth : Option FoldDepth} {child : KeyFragment → Contents}
    (folds : ∀ name, FoldsTo S depth (child name)) (iter : List (KeyFragment × Addr))
    {level : TreeWalkerLevel} (tight : Tight w.heap) (kinded : Kinded w)
    (yielded : level.yieldSelf = false) (children : level.childrenIter = some iter)
    (shows : ∀ p ∈ iter, p.2 < w.heap.next ∧ Shows w (content w (.node p.2)) (child p.1)) :
    ∃ own w', Reads w w' ∧ Kinded w' ∧
      Listed w' level.key own
        ((iter.map Prod.fst).flatMap (foldedBelow depth level.currentDepth child)) ∧
      ∀ {below items w''}, Yields depth below w' items w'' →
        Yields depth (level :: below) w (own ++ items) w'' := by
  induction iter generalizing w level with
  | nil => exact ⟨[], w, Reads.refl tight, kinded, .nil, .pop yielded (Or.inr children)⟩
  | cons p iter ih =>
      obtain ⟨k, node⟩ := p
      obtain ⟨lt, here⟩ := shows (k, node) List.mem_cons_self
      obtain ⟨_, root, w₁, _, run, _, reads₁, kinded₁, shows₁⟩ :=
        nodeTree_shows tight kinded lt here
      obtain ⟨own₁, w₂, reads₂, kinded₂, listed₁, run₁⟩ :=
        folds k (level.key ++ [k]) (level.currentDepth + 1) reads₁.tight kinded₁ shows₁
      have reads := reads₁.trans reads₂
      have later : ∀ p ∈ iter, p.2 < w₂.heap.next ∧ Shows w₂ (content w₂ (.node p.2)) (child p.1) := by
        intro p hp
        obtain ⟨lt, here⟩ := shows p (List.mem_cons_of_mem _ hp)
        exact ⟨Nat.lt_of_lt_of_le lt reads.next, reads.shows lt here⟩
      obtain ⟨own₂, w₃, reads₃, kinded₃, listed₂, run₂⟩ :=
        @ih w₂ { level with childrenIter := some iter } reads.tight kinded₂ yielded rfl later
      refine ⟨own₁ ++ own₂, w₃, reads.trans reads₃, kinded₃, ?_, ?_⟩
      · rw [List.map_cons, List.flatMap_cons]
        exact List.rel_append (listed₁.reads reads₃).below listed₂
      · intro below items w'' rest
        rw [List.append_assoc]
        exact .push yielded children run (run₁ (run₂ rest))

/-- A tree on top of the stack. -/
theorem foldsTo {depth : Option FoldDepth} (bound : ∀ f ∈ depth, Int64.minValue < f.bound)
    (c : Contents) : FoldsTo S depth c := by
  induction c with
  | value v =>
      intro w root key d tight kinded shows
      cases root with
      | tree tree => cases shows.2.nil
      | value v' =>
          have none : (TreeWalkerLevel.new key (.value v') d depth).childrenIter = none := by
            simp [TreeWalkerLevel.new]
          rw [folded_value]
          cases apply : applies depth d with
          | false =>
              exact ⟨[], w, Reads.refl tight, kinded, .nil, .pop apply (Or.inl none)⟩
          | true =>
              refine ⟨[(key, .value v')], w, Reads.refl tight, kinded, ?_, ?_⟩
              · exact .cons ⟨by simp, shows⟩ .nil
              · intro below items w'' rest
                exact .self apply (.pop rfl (Or.inl none) rest)
  | directory names child ih =>
      intro w root key d tight kinded shows
      cases root with
      | value v => cases shows
      | tree tree =>
          obtain ⟨within, shows⟩ := shows
          -- The level after it yielded its own tree.
          have nodes : ∃ own w', Reads w w' ∧ Kinded w' ∧
              Listed w' key own ((names.sort (· ≤ ·)).flatMap (foldedBelow depth d child)) ∧
              ∀ {below items w''}, Yields depth below w' items w'' →
                Yields depth ({ TreeWalkerLevel.new key (.tree tree) d depth with
                  yieldSelf := false } :: below) w (own ++ items) w'' := by
            cases go : continues depth d with
            | false =>
                rw [flatMap_foldedBelow_of_stop bound go]
                have none : (TreeWalkerLevel.new key (.tree tree) d depth).childrenIter = none :=
                  if_neg (Bool.eq_false_iff.mp go)
                exact ⟨[], w, Reads.refl tight, kinded, .nil, .pop rfl (Or.inl none)⟩
            | true =>
                have iter : (TreeWalkerLevel.new key (.tree tree) d depth).childrenIter =
                    some tree.entries := if_pos go
                rw [← shows.directory_keys]
                have yielded : ({ TreeWalkerLevel.new key (.tree tree) d depth with
                  yieldSelf := false } : TreeWalkerLevel).yieldSelf = false := rfl
                refine yields_children ih tree.entries tight kinded yielded iter ?_
                intro p hp
                exact ⟨within p hp, shows.directory_child (OrdMap.mem_entries.mp hp)⟩
          obtain ⟨own, w', reads, kinded', listed, run⟩ := nodes
          rw [folded_directory]
          cases apply : applies depth d with
          | false =>
              refine ⟨own, w', reads, kinded', listed, ?_⟩
              have same : { TreeWalkerLevel.new key (.tree tree) d depth with yieldSelf := false } =
                  TreeWalkerLevel.new key (.tree tree) d depth := by
                rw [← apply]
                rfl
              rw [same] at run
              intro below items w'' rest
              exact run rest
          | true =>
              refine ⟨(key, .tree tree) :: own, w', reads, kinded', ?_, ?_⟩
              · refine .cons ⟨by simp, ?_⟩ listed
                exact reads.showsWorkingTree ⟨within, shows⟩
              · intro below items w'' rest
                exact .self apply (run rest)

/-! ## The loop ends -/

namespace TreeWalker

/-- What `collect` does after a call of `next`. -/
def goOn (rounds calls : Nat) : Option Item × TreeWalker → Call S MerkleError (List Item)
  | (none, _) => pure []
  | (some item, self) => do
      let rest ← collect rounds calls self
      pure (item :: rest)

theorem collect_succ (rounds calls : Nat) (self : TreeWalker) :
    (collect rounds (calls + 1) self : Call S MerkleError (List Item)) =
      next rounds self >>= goOn rounds calls := by
  rw [collect]
  refine congrArg _ (funext ?_)
  intro r
  rcases r with ⟨_ | item, self⟩ <;> rfl

variable {depth : Option FoldDepth} {level : TreeWalkerLevel} {below : List TreeWalkerLevel}

theorem next_self (fuel : Nat) (yieldSelf : level.yieldSelf = true) (w : World S) :
    next (fuel + 1) ⟨depth, level :: below⟩ w = (.ok (some (level.key, level.root),
      ⟨depth, { level with yieldSelf := false } :: below⟩), w) := by
  rw [next]
  exact congrFun (if_pos yieldSelf) w

theorem next_push (fuel : Nat) {k : KeyFragment} {node : Addr} {iter : List (KeyFragment × Addr)}
    {root : WorkingTree} {w₁ : World S} (yielded : level.yieldSelf = false)
    (children : level.childrenIter = some ((k, node) :: iter))
    (run : nodeTree node w = (.ok root, w₁)) :
    next (fuel + 1) ⟨depth, level :: below⟩ w = next fuel ⟨depth,
      .new (level.key ++ [k]) root (level.currentDepth + 1) depth ::
        { level with childrenIter := some iter } :: below⟩ w₁ := by
  have loaded : (Exec.handle (fun _ : MerkleError => pure none) (do
      let root ← nodeTree node
      pure (some root)) : Call S MerkleError (Option WorkingTree)) w = (.ok (some root), w₁) := by
    simp only [Exec.handle, Exec.bind_ok run]
    rfl
  rw [next]
  simp only [yielded, Bool.false_eq_true, if_false, children]
  exact Exec.bind_ok loaded

theorem next_pop (fuel : Nat) (yielded : level.yieldSelf = false)
    (children : level.childrenIter = none ∨ level.childrenIter = some []) :
    (next (fuel + 1) ⟨depth, level :: below⟩ : Call S MerkleError _) =
      next fuel ⟨depth, below⟩ := by
  rw [next]
  rcases children with h | h <;> simp only [yielded, Bool.false_eq_true, if_false, h]

end TreeWalker

open TreeWalker in
/-- With enough rounds and calls the iterator ends, and yields what it should. -/
theorem Yields.next_goOn {depth : Option FoldDepth} {stack : List TreeWalkerLevel}
    {items : List Item} (h : Yields depth stack w items w') :
    ∃ n, ∀ first rounds calls, n ≤ first → n ≤ rounds → n ≤ calls →
      (next first ⟨depth, stack⟩ >>= goOn rounds calls) w = (.ok items, w') := by
  induction h with
  | done w =>
      refine ⟨1, ?_⟩
      intro first rounds calls hfirst _ _
      obtain ⟨first, rfl⟩ := Nat.exists_eq_add_of_le' hfirst
      rfl
  | @self level below w w' items yieldSelf rest ih =>
      obtain ⟨n, ih⟩ := ih
      refine ⟨n + 1, ?_⟩
      intro first rounds calls hfirst hrounds hcalls
      obtain ⟨first, rfl⟩ := Nat.exists_eq_add_of_le' hfirst
      obtain ⟨calls, rfl⟩ := Nat.exists_eq_add_of_le' hcalls
      rw [← Nat.add_assoc, Exec.bind_ok (next_self (first + n) yieldSelf w)]
      show (collect rounds (calls + n + 1) _ >>= _) w = _
      have run := ih rounds rounds (calls + n) (by omega) (by omega) (by omega)
      rw [← collect_succ] at run
      rw [Exec.bind_ok run]
      rfl
  | @push level below w w₁ w' items k node iter root yielded children run rest ih =>
      obtain ⟨n, ih⟩ := ih
      refine ⟨n + 1, ?_⟩
      intro first rounds calls hfirst hrounds hcalls
      obtain ⟨first, rfl⟩ := Nat.exists_eq_add_of_le' hfirst
      rw [← Nat.add_assoc, Exec.bind_congr_run (next_push (first + n) yielded children run)]
      exact ih (first + n) rounds calls (by omega) (by omega) (by omega)
  | @pop level below w w' items yielded children rest ih =>
      obtain ⟨n, ih⟩ := ih
      refine ⟨n + 1, ?_⟩
      intro first rounds calls hfirst hrounds hcalls
      obtain ⟨first, rfl⟩ := Nat.exists_eq_add_of_le' hfirst
      rw [← Nat.add_assoc, next_pop (first + n) yielded children]
      exact ih (first + n) rounds calls (by omega) (by omega) (by omega)

/-- An iterator that is done after some rounds, called until then. -/
theorem Yields.collect {walker : TreeWalker} {items : List TreeWalker.Item}
    (h : Yields walker.depth walker.stack w items w') :
    ∃ n, ∀ rounds calls, n ≤ rounds → n ≤ calls → walker.collect rounds calls w = (.ok items, w') := by
  obtain ⟨n, run⟩ := h.next_goOn
  refine ⟨n + 1, ?_⟩
  intro rounds calls hrounds hcalls
  obtain ⟨calls, rfl⟩ := Nat.exists_eq_add_of_le' hcalls
  rw [← Nat.add_assoc, TreeWalker.collect_succ]
  exact run rounds rounds (calls + n) (by omega) (by omega) (by omega)

/-! ## Folding -/

/-- What a fold from a key lists: nothing where no directory is, or an empty one. -/
def foldedAt (depth : Option FoldDepth) : Option Contents → List (ContextKey × Contents)
  | some (.directory names child) =>
      if names = ∅ then [] else folded depth 0 (.directory names child)
  | _ => []

/-- What is listed is in lexical order. -/
theorem foldedAt_sorted (depth : Option FoldDepth) (c : Option Contents) :
    ((foldedAt depth c).map Prod.fst).Pairwise (List.Lex (· < ·)) := by
  rcases c with _ | (v | ⟨names, child⟩)
  · exact .nil
  · exact .nil
  · rw [foldedAt]
    split
    · exact .nil
    · exact (NameTree.walk_sorted _).sublist (List.filter_sublist.map _)

/-- What is listed is what paths below a directory that is not empty lead to, at the depths
that are asked for. -/
theorem mem_foldedAt {depth : Option FoldDepth} {c : Option Contents} {path : ContextKey}
    {s : Contents} : (path, s) ∈ foldedAt depth c ↔ ∃ names child,
      c = some (.directory names child) ∧ names ≠ ∅ ∧
        NameTree.get (.directory names child) path = some s ∧ applies depth path.length = true := by
  rcases c with _ | (v | ⟨names, child⟩)
  · simp [foldedAt]
  · simp [foldedAt]
  · rw [foldedAt]
    split
    next empty =>
      simp only [List.not_mem_nil, false_iff]
      intro h
      obtain ⟨_, _, heq, hne, _⟩ := h
      cases heq
      exact hne empty
    next nonempty =>
      rw [folded, List.mem_filter, NameTree.mem_walk, Int.zero_add]
      constructor
      · exact fun h => ⟨names, child, rfl, nonempty, h⟩
      · intro h
        obtain ⟨_, _, heq, _, h⟩ := h
        cases heq
        exact h

/-- The iterator of a fold, when the directory at the key was found. -/
theorem foldIter_start {t : WorkingTree} {tree : Tree} {key : ContextKey}
    (found : TezedgeIndex.findRawTree t.root key w = (.ok tree, w')) (depth : Option FoldDepth) :
    t.foldIter depth key w =
      (.ok (if tree.isEmpty then .empty else .new [] (.tree tree) depth), w') := by
  simp only [WorkingTree.foldIter, WorkingTree.findTree, bind, Exec.bind, found]
  cases tree.isEmpty <;> rfl

/-- `fold_iter` makes an iterator that yields what a fold lists. -/
theorem foldIter_yields {t : WorkingTree} {c : Contents} {depth : Option FoldDepth}
    (tight : Tight w.heap) (kinded : Kinded w) (within : Within w.heap t.root)
    (shows : Shows w (treeContent t.root) c) (bound : ∀ f ∈ depth, Int64.minValue < f.bound)
    (key : ContextKey) :
    ∃ walker w₁ items w', t.foldIter depth key w = (.ok walker, w₁) ∧
      Yields walker.depth walker.stack w₁ items w' ∧
      Listed w' [] items (foldedAt depth (c.get key)) := by
  obtain ⟨tree, w₁, found, reads, within₁, here⟩ := findRawTree_shows tight within shows key
  have kinded₁ := Exec.wp_ok (findRawTree_kinded tight kinded within key) found
  have start := foldIter_start found depth
  have nothing (h : tree.isEmpty = true) (none : foldedAt depth (c.get key) = []) :
      ∃ walker w₁ items w', t.foldIter depth key w = (.ok walker, w₁) ∧
        Yields walker.depth walker.stack w₁ items w' ∧
        Listed w' [] items (foldedAt depth (c.get key)) := by
    refine ⟨.empty, w₁, [], w₁, ?_, .done w₁, ?_⟩
    · rw [start, if_pos h]
    · rw [none]
      exact .nil
  rcases here with ⟨names, child, hs, shows₁⟩ | ⟨none, rfl⟩
  · obtain ⟨_, _, heq, empty⟩ := shows₁.exists_directory
    cases heq
    by_cases hnames : names = ∅
    · refine nothing (by simp [empty, hnames]) ?_
      rw [hs, foldedAt, if_pos hnames]
    · obtain ⟨own, w', _, _, listed, run⟩ := foldsTo bound (.directory names child) [] 0
        reads.tight kinded₁ (show (WorkingTree.tree tree).Shows w₁ _ from ⟨within₁, shows₁⟩)
      refine ⟨.new [] (.tree tree) depth, w₁, own, w', ?_, ?_, ?_⟩
      · rw [start, if_neg (by simp [empty, hnames])]
      · have done := run (.done w')
        rw [List.append_nil] at done
        exact done
      · rw [hs, foldedAt, if_neg hnames]
        exact listed
  · refine nothing rfl ?_
    rcases hs : c.get key with _ | (v | ⟨names, child⟩)
    · rfl
    · rfl
    · exact absurd hs (none names child)

/-- The iterator of `fold_iter` ends.  It yields, each with its path and in lexical order,
the trees and values of the directory at the key whose depths are asked for, and nothing
where no directory is or an empty one.  A value is never yielded with an empty path. -/
theorem foldIter_walk {t : WorkingTree} {c : Contents} {depth : Option FoldDepth}
    (tight : Tight w.heap) (kinded : Kinded w) (within : Within w.heap t.root)
    (shows : Shows w (treeContent t.root) c) (bound : ∀ f ∈ depth, Int64.minValue < f.bound)
    (key : ContextKey) :
    ∃ n items w', (∀ rounds calls, n ≤ rounds → n ≤ calls → (do
        let walker ← t.foldIter depth key
        walker.collect rounds calls) w = (.ok items, w')) ∧
      Listed w' [] items (foldedAt depth (c.get key)) ∧
      (items.map Prod.fst).Pairwise (List.Lex (· < ·)) ∧
      ∀ item ∈ items, item.1 = [] → ∃ tree, item.2 = .tree tree := by
  obtain ⟨walker, w₁, items, w', start, yields, listed⟩ :=
    foldIter_yields tight kinded within shows bound key
  obtain ⟨n, run⟩ := yields.collect
  refine ⟨n, items, w', ?_, listed, ?_, ?_⟩
  · intro rounds calls hrounds hcalls
    rw [Exec.bind_ok start]
    exact run rounds calls hrounds hcalls
  · have keys : items.map Prod.fst = (foldedAt depth (c.get key)).map Prod.fst := by
      rw [← List.forall₂_eq_eq_eq, List.forall₂_map_left_iff, List.forall₂_map_right_iff]
      exact listed.imp fun _ _ h => h.1
    rw [keys]
    exact foldedAt_sorted depth _
  · intro item mem nil
    obtain ⟨⟨path, s⟩, hp, hkey, shown⟩ := exists_mem_of_forall₂ listed mem
    have hpath : path = [] := by
      rw [List.nil_append, nil] at hkey
      exact hkey.symm
    subst hpath
    obtain ⟨names, child, _, _, hs, _⟩ := mem_foldedAt.mp hp
    cases hs
    cases hitem : item.2 with
    | tree tree => exact ⟨tree, rfl⟩
    | value v =>
        rw [hitem] at shown
        cases shown

section Sample

local instance foldDigest : Digest := sampleDigest

/-- What the tree with a directory and a value holds. -/
def twoLevelContents : Contents :=
  .directory {"a", "d"} fun name =>
    if name = "a" then .directory {"b", "c"} fun name => .value (if name = "b" then [1] else [2])
    else .value [3]

theorem shows_twoLevelTree :
    Shows twoLevels (treeContent twoLevelTree.root) twoLevelContents := by
  have entries : twoLevelTree.root.entries = [("a", 2), ("d", 3)] := by decide +kernel
  have below : ((OrdMap.empty.insert "b" 0).insert "c" 1 : Tree).entries =
      [("b", 0), ("c", 1)] := by
    decide +kernel
  refine Shows.directory (by decide +kernel) ?_
  rw [entries, List.forall_mem_cons, List.forall_mem_singleton]
  refine ⟨Shows.directory (by decide +kernel) ?_, Shows.value _ _⟩
  rw [below, List.forall_mem_cons, List.forall_mem_singleton]
  exact ⟨Shows.value _ _, Shows.value _ _⟩

theorem kinded_twoLevels : Kinded twoLevels where
  nodes := by
    intro a ha
    have each : ∀ n : Nat, n < 4 → n = 0 ∨ n = 1 ∨ n = 2 ∨ n = 3 := by omega
    rcases each a ha with rfl | rfl | rfl | rfl <;> rfl
  stored := by
    intro id entries p _ hvalue
    cases hvalue

theorem foldIter_walk_twoLevels : ∃ n items w', (∀ rounds calls, n ≤ rounds → n ≤ calls → (do
      let walker ← twoLevelTree.foldIter (some (.ge 1)) []
      walker.collect rounds calls) twoLevels = (.ok items, w')) ∧
    Listed w' [] items (foldedAt (some (.ge 1)) (some twoLevelContents)) := by
  have bound : ∀ f ∈ some (FoldDepth.ge 1), Int64.minValue < f.bound := by
    intro f hf
    cases hf
    decide
  obtain ⟨n, items, w', run, listed, _⟩ := foldIter_walk tight_twoLevels kinded_twoLevels
    within_twoLevelTree shows_twoLevelTree bound []
  exact ⟨n, items, w', run, listed⟩

/-- An empty directory is not yielded, as `find_tree` does not find it. -/
theorem foldIter_of_empty :
    let w : World System := ⟨Heap.empty, .new false []⟩
    let c : Contents := .directory ∅ fun _ => .value []
    (Tight w.heap ∧ Kinded w ∧ Within w.heap WorkingTree.new.root ∧
      Shows w (treeContent WorkingTree.new.root) c) ∧
    ¬ ∃ n items w', (∀ rounds calls, n ≤ rounds → n ≤ calls → (do
        let walker ← WorkingTree.new.foldIter none []
        walker.collect rounds calls) w = (.ok items, w')) ∧
      Listed w' [] items (folded none 0 c) := by
  intro w c
  refine ⟨⟨nofun, ⟨nofun, fun _ hvalue => nomatch hvalue⟩, Within.empty _, ?_⟩, ?_⟩
  · intro key
    cases key <;> rfl
  · intro h
    obtain ⟨n, items, w', run, listed⟩ := h
    have here := run (n + 1) (n + 1) (Nat.le_succ n) (Nat.le_succ n)
    cases here
    cases listed

end Sample

end NodeFuzzer
