import NodeFuzzer.Context.Fold
import NodeFuzzer.Context.Membership
import NodeFuzzer.Context.Merkle

/-!
# Comparing trees

`equal` compares root hashes.  A tree that holds a value, as `list` and `fold_iter` hand them
out, has the empty directory for its root, so that all values are equal to each other and to
every empty directory.  Two directories are equal exactly when they have the same
bindings and can be hashed.
-/

namespace NodeFuzzer

open KeyValueStoreBackend StoreView

/-! ## A process that compares trees -/

/-- What a process holds: the trees it was handed, and the iterators it started. -/
structure Client (S : Type) where
  world : World S
  trees : List WorkingTree
  walkers : List TreeWalker

/-- What it may ask for: a call on a tree it holds, or the next item of an iterator. -/
inductive ClientCall where
  | empty
  | add (tree : Nat) (key : ContextKey) (value : ContextValue)
  | delete (tree : Nat) (key : ContextKey)
  | findTree (tree : Nat) (key : ContextKey)
  | list (tree : Nat) (offset length : Option Nat) (key : ContextKey)
  | foldIter (tree : Nat) (depth : Option FoldDepth) (key : ContextKey)
  | next (walker rounds : Nat)
  | equal (tree other : Nat)

namespace Client

/-- Before the first call. -/
def start {S : Type} (repo : S) : Client S := ⟨⟨.empty, repo⟩, [], []⟩

variable {S : Type} [KeyValueStoreBackend S]

/-- A call on the nodes and the store. -/
def onWorld {α : Type} (x : Call S MerkleError α) : Exec (Client S) MerkleError α :=
  Exec.onPart world (fun w c => { c with world := w }) x

/-- Keep trees that were handed out. -/
def keep (trees : List WorkingTree) : Exec (Client S) MerkleError Unit :=
  Exec.modify fun c => { c with trees := c.trees ++ trees }

/-- What has a number; nothing can be asked of what is not there. -/
def numbered {α : Type} (held : Client S → List α) (number : Nat)
    (f : α → Exec (Client S) MerkleError Unit) : Exec (Client S) MerkleError Unit := fun c =>
  match (held c)[number]? with
  | none => (.ok (), c)
  | some a => f a c

/-- Do what is asked. -/
def perform [Digest] : ClientCall → Exec (Client S) MerkleError Unit
  | .empty => keep [.new]
  | .add tree key value => numbered trees tree fun t => do
      let t ← onWorld (t.add key value)
      keep [t]
  | .delete tree key => numbered trees tree fun t => do
      let t ← onWorld (t.delete key)
      keep [t]
  | .findTree tree key => numbered trees tree fun t => do
      let found ← onWorld (t.findTree key)
      keep found.toList
  | .list tree offset length key => numbered trees tree fun t => do
      let children ← onWorld (t.list offset length key)
      keep (children.map Prod.snd)
  | .foldIter tree depth key => numbered trees tree fun t => do
      let walker ← onWorld (t.foldIter depth key)
      Exec.modify fun c => { c with walkers := c.walkers ++ [walker] }
  | .next walker rounds => numbered walkers walker fun self => do
      let (item, self) ← onWorld (self.next rounds)
      Exec.modify fun c => { c with walkers := c.walkers.set walker self }
      keep (item.map Prod.snd).toList
  | .equal tree other => numbered trees tree fun t => numbered trees other fun t' => do
      let _ ← onWorld (t.equal t')
      pure ()

/-- A run of the process. -/
def Runs [Digest] : Client S → Client S → Prop :=
  Relation.ReflTransGen fun c c' => ∃ call, (perform call c).2 = c'

/-- The state after some calls. -/
def after [Digest] (c : Client S) (calls : List ClientCall) : Client S :=
  calls.foldl (fun c call => (perform call c).2) c

theorem runs_after [Digest] (c : Client S) (calls : List ClientCall) : Runs c (c.after calls) := by
  induction calls generalizing c with
  | nil => exact .refl
  | cons call calls ih => exact .head ⟨call, rfl⟩ (ih _)

end Client

/-! ## Reading trees that are built -/

section Reading

variable {S : Type} [KeyValueStoreBackend S] [LawfulStore S] [Digest] {w : World S}

/-- A node has its entry, of the kind it says. -/
theorem Built.wp_nodeTree (built : Built w) {a : Addr} (ha : a < w.heap.next) :
    Exec.wp (nodeTree a) (fun t w' => w' = w ∧ Within w.heap t.root) (fun _ => False) w := by
  rw [nodeTree, Exec.wp_bind]
  cases built.canonical.nodes a ha with
  | leaf kind entry =>
      rw [Exec.wp, nodeEntry_loaded entry]
      show Exec.wp (Call.readNode a >>= _) _ _ w
      rw [Exec.wp_bind, Call.readNode, Exec.wp_gets, kind]
      exact ⟨rfl, Within.empty _⟩
  | directory kind entry =>
      rw [Exec.wp, nodeEntry_loaded entry]
      show Exec.wp (Call.readNode a >>= _) _ _ w
      rw [Exec.wp_bind, Call.readNode, Exec.wp_gets, kind]
      exact ⟨rfl, built.canonical.within entry⟩

theorem Built.list (built : Built w) {t : WorkingTree} (within : Within w.heap t.root)
    (offset length : Option Nat) (key : ContextKey) :
    Exec.wp (t.list offset length key)
      (fun children w' => w' = w ∧ ∀ q ∈ children, Within w.heap q.2.root) (fun w' => w' = w) w := by
  rw [WorkingTree.list, Exec.wp_bind]
  refine Exec.wp_mono (built.wp_findRawTree within key) ?_ fun _ h => h.elim
  intro tree w' h
  obtain ⟨rfl, within'⟩ := h
  rw [Exec.wp_bind]
  refine Exec.wp_mono (Exec.wp_mapEach
    (I := fun _ children w'' => w'' = w' ∧ ∀ q, some q ∈ children → Within w'.heap q.2.root)
    ⟨rfl, by simp⟩ ?_) ?_ fun _ h => h
  · intro _ p children w'' hp h
    obtain ⟨rfl, old⟩ := h
    have lt := within' p (List.mem_of_mem_drop (List.mem_of_mem_take hp))
    obtain ⟨entry, loaded, made⟩ : ∃ entry, (w''.heap.node p.2).entry = some entry ∧
        ∀ q, WorkingTree.childTree p.1 entry = some q → Within w''.heap q.2.root := by
      cases built.canonical.nodes p.2 lt with
      | leaf _ entry =>
          refine ⟨_, entry, ?_⟩
          intro q h
          cases h
          exact Within.empty _
      | directory _ entry =>
          refine ⟨_, entry, ?_⟩
          intro q h
          cases h
          exact built.canonical.within entry
    rw [Exec.wp_bind, Exec.wp, nodeEntry_loaded loaded]
    refine ⟨rfl, ?_⟩
    intro q hq
    rcases List.mem_append.mp hq with hq | hq
    · exact old q hq
    · exact made q (List.mem_singleton.mp hq).symm
  · intro children w'' h
    refine ⟨h.1, ?_⟩
    intro q hq
    exact h.2 q (List.reduceOption_mem_iff.mp hq)

end Reading

/-- The nodes of an iterator exist. -/
structure WalkerWithin (heap : Heap) (walker : TreeWalker) : Prop where
  roots : ∀ level ∈ walker.stack, Within heap level.root.root
  nodes : ∀ level ∈ walker.stack, ∀ iter, level.childrenIter = some iter →
    ∀ p ∈ iter, p.2 < heap.next

namespace WalkerWithin

variable {heap heap' : Heap} {depth : Option FoldDepth} {level : TreeWalkerLevel}
  {below : List TreeWalkerLevel}

theorem mono {walker : TreeWalker} (h : WalkerWithin heap walker) (next : heap.next ≤ heap'.next) :
    WalkerWithin heap' walker where
  roots := fun level hlevel => (h.roots level hlevel).mono next
  nodes := fun level hlevel iter hiter p hp =>
    Nat.lt_of_lt_of_le (h.nodes level hlevel iter hiter p hp) next

theorem tail (h : WalkerWithin heap ⟨depth, level :: below⟩) : WalkerWithin heap ⟨depth, below⟩ where
  roots := fun _ hlevel => h.roots _ (List.mem_cons_of_mem _ hlevel)
  nodes := fun _ hlevel => h.nodes _ (List.mem_cons_of_mem _ hlevel)

theorem push (h : WalkerWithin heap ⟨depth, below⟩) (root : Within heap level.root.root)
    (nodes : ∀ iter, level.childrenIter = some iter → ∀ p ∈ iter, p.2 < heap.next) :
    WalkerWithin heap ⟨depth, level :: below⟩ where
  roots := by
    intro l hl
    rcases List.mem_cons.mp hl with rfl | hl
    · exact root
    · exact h.roots l hl
  nodes := by
    intro l hl
    rcases List.mem_cons.mp hl with rfl | hl
    · exact nodes
    · exact h.nodes l hl

theorem empty (heap : Heap) (depth : Option FoldDepth) : WalkerWithin heap ⟨depth, []⟩ :=
  ⟨by simp, by simp⟩

/-- A new level goes through the nodes of its tree. -/
theorem pushNew (h : WalkerWithin heap ⟨depth, below⟩) {key : ContextKey} {t : WorkingTree}
    {d : Int} (within : Within heap t.root) :
    WalkerWithin heap ⟨depth, .new key t d depth :: below⟩ := by
  refine h.push within ?_
  intro iter hiter p hp
  cases t with
  | tree root =>
      simp only [TreeWalkerLevel.new] at hiter
      split at hiter
      next =>
        cases hiter
        exact within p hp
      next => cases hiter
  | value v =>
      simp only [TreeWalkerLevel.new] at hiter
      split at hiter <;> cases hiter

end WalkerWithin

section Iterating

variable {S : Type} [KeyValueStoreBackend S] [LawfulStore S] [Digest] {w : World S}

/-- The iterator hands out trees whose nodes exist, and changes nothing. -/
theorem Built.next (built : Built w) (fuel : Nat) {walker : TreeWalker}
    (within : WalkerWithin w.heap walker) :
    Exec.wp (walker.next fuel)
      (fun r w' => w' = w ∧ (∀ item ∈ r.1, Within w.heap item.2.root) ∧ WalkerWithin w.heap r.2)
      (fun w' => w' = w) w := by
  induction fuel generalizing walker with
  | zero => rfl
  | succ fuel ih =>
      obtain ⟨depth, stack⟩ := walker
      rw [TreeWalker.next]
      cases stack with
      | nil => exact ⟨rfl, by simp, within⟩
      | cons level below =>
          have root := within.roots level List.mem_cons_self
          have nodes := within.nodes level List.mem_cons_self
          show Exec.wp (if level.yieldSelf then _ else _) _ _ w
          by_cases yieldSelf : level.yieldSelf = true
          · rw [if_pos yieldSelf]
            refine ⟨rfl, ?_, within.tail.push root nodes⟩
            intro item hitem
            cases hitem
            exact root
          · rw [if_neg yieldSelf]
            cases children : level.childrenIter with
            | none => exact ih within.tail
            | some iter =>
                cases iter with
                | nil => exact ih within.tail
                | cons p iter =>
                    have lt := nodes _ children p List.mem_cons_self
                    have rest : WalkerWithin w.heap
                        ⟨depth, { level with childrenIter := some iter } :: below⟩ := by
                      refine within.tail.push root ?_
                      intro iter' hiter q hq
                      cases hiter
                      exact nodes _ children q (List.mem_cons_of_mem _ hq)
                    show Exec.wp (Exec.handle _ _ >>= _) _ _ w
                    rw [Exec.wp_bind]
                    refine Exec.wp_handle (F := fun _ => False) ?_ (by simp) (by simp)
                    rw [Exec.wp_bind]
                    refine Exec.wp_mono (built.wp_nodeTree lt) ?_ fun _ h => h
                    intro t w' h
                    obtain ⟨rfl, within'⟩ := h
                    exact ih (rest.pushNew within')

/-! ## Whole runs -/

/-- What holds of a process that compares trees. -/
structure BuiltClient (c : Client S) : Prop where
  built : Built c.world
  trees : ∀ t ∈ c.trees, Within c.world.heap t.root
  walkers : ∀ walker ∈ c.walkers, WalkerWithin c.world.heap walker

variable {c c' : Client S}

namespace BuiltClient

theorem ofWorld (client : BuiltClient c) (later : BuiltLater c.world w) :
    BuiltClient { c with world := w } where
  built := later.built
  trees := fun t ht => (client.trees t ht).mono later.next
  walkers := fun walker hwalker => (client.walkers walker hwalker).mono later.next

theorem keep {trees : List WorkingTree} (client : BuiltClient c)
    (within : ∀ t ∈ trees, Within c.world.heap t.root) :
    BuiltClient { c with trees := c.trees ++ trees } where
  built := client.built
  trees := fun t ht => (List.mem_append.mp ht).elim (client.trees t) (within t)
  walkers := client.walkers

end BuiltClient

omit [KeyValueStoreBackend S] [LawfulStore S] [Digest] in
theorem wp_clientWorld {α : Type} {x : Call S MerkleError α} {Q : α → Client S → Prop}
    {E : Client S → Prop} :
    Exec.wp (Client.onWorld x) Q E c ↔ Exec.wp x (fun a w => Q a { c with world := w })
      (fun w => E { c with world := w }) c.world := Exec.wp_onPart ..

omit [KeyValueStoreBackend S] [LawfulStore S] [Digest] in
theorem wp_numbered {α : Type} {held : Client S → List α} {i : Nat}
    {f : α → Exec (Client S) MerkleError Unit} {P : Client S → Prop} (absent : P c)
    (found : ∀ a ∈ held c, Exec.wp (f a) (fun _ => P) P c) :
    Exec.wp (Client.numbered held i f) (fun _ => P) P c := by
  unfold Exec.wp Client.numbered
  cases hi : (held c)[i]? with
  | none => exact absent
  | some a => exact found a (List.mem_of_getElem? hi)

/-- A tree is made and kept. -/
theorem wp_keepNew {x : Call S MerkleError WorkingTree} (client : BuiltClient c)
    (spec : Exec.wp x (fun t w => BuiltLater c.world w ∧ Within w.heap t.root)
      (fun w => BuiltLater c.world w) c.world) :
    Exec.wp (do
        let t ← Client.onWorld x
        Client.keep [t]) (fun _ => BuiltClient) BuiltClient c := by
  rw [Exec.wp_bind, wp_clientWorld]
  refine Exec.wp_mono spec ?_ fun w later => client.ofWorld later
  intro t w h
  refine (client.ofWorld h.1).keep ?_
  intro t' ht
  rw [List.mem_singleton.mp ht]
  exact h.2

/-- Trees are read, and some are kept. -/
theorem wp_keepRead {α : Type} {x : Call S MerkleError α} (trees : α → List WorkingTree)
    (client : BuiltClient c)
    (spec : Exec.wp x (fun a w => w = c.world ∧ ∀ t ∈ trees a, Within c.world.heap t.root)
      (fun w => w = c.world) c.world) :
    Exec.wp (do
        let a ← Client.onWorld x
        Client.keep (trees a)) (fun _ => BuiltClient) BuiltClient c := by
  rw [Exec.wp_bind, wp_clientWorld]
  refine Exec.wp_mono spec ?_ ?_
  · intro a w h
    obtain ⟨rfl, within⟩ := h
    exact client.keep within
  · intro w h
    rw [h]
    exact client

/-- `find_tree` hands out a directory whose nodes exist. -/
theorem Built.findTree (built : Built w) {t : WorkingTree} (within : Within w.heap t.root)
    (key : ContextKey) :
    Exec.wp (t.findTree key) (fun found w' => w' = w ∧ ∀ t' ∈ found, Within w.heap t'.root)
      (fun _ => False) w := by
  rw [WorkingTree.findTree, Exec.wp_bind]
  refine Exec.wp_mono (built.wp_findRawTree within key) ?_ fun _ h => h
  intro tree w' h
  obtain ⟨rfl, within'⟩ := h
  cases tree.isEmpty with
  | true => exact ⟨rfl, by simp⟩
  | false =>
      refine ⟨rfl, ?_⟩
      intro t' ht
      cases ht
      exact within'

/-- A call of `hash` returns the hash, unless there is none or the store is full. -/
theorem Built.hash (built : Built w) {t : WorkingTree} (within : Within w.heap t.root) :
    Exec.wp t.hash (fun h w' => BuiltLater w w' ∧ TreeHashOf w t.root h)
      (fun w' => BuiltLater w w' ∧ (Exhausted w'.repo ∨ ¬ ∃ h, TreeHashOf w t.root h)) w := by
  have spec := @getMerkleRoot_spec S _ _ _ w _ ⟨none, t⟩ built.good built.region within within
  rw [TezedgeContext.getMerkleRoot, Exec.wp_mapErr] at spec
  refine Exec.wp_mono spec ?_ ?_
  · exact fun h w' hh => ⟨.ofStep built hh.1, hh.2⟩
  · exact fun w' hh => ⟨.ofStep built hh.1, hh.2⟩

/-- `equal` compares the hashes of the roots. -/
theorem Built.equal (built : Built w) {t t' : WorkingTree} (within : Within w.heap t.root)
    (within' : Within w.heap t'.root) :
    Exec.wp (t.equal t')
      (fun same w' => BuiltLater w w' ∧
        ∃ h h', TreeHashOf w t.root h ∧ TreeHashOf w t'.root h' ∧ same = decide (h = h'))
      (fun w' => BuiltLater w w' ∧ (Exhausted w'.repo ∨
        ¬ ((∃ h, TreeHashOf w t.root h) ∧ ∃ h, TreeHashOf w t'.root h))) w := by
  rw [WorkingTree.equal, Exec.wp_bind]
  refine Exec.wp_mono (built.hash within) ?_ ?_
  · intro h w₁ first
    obtain ⟨later, hash⟩ := first
    rw [Exec.wp_bind]
    refine Exec.wp_mono (later.built.hash (within'.mono later.next)) ?_ ?_
    · intro h' w₂ second
      obtain ⟨later', hash'⟩ := second
      exact ⟨later.trans later', h, h', hash, (later.treeHashOf within' h').mp hash', rfl⟩
    · intro w₂ second
      obtain ⟨later', excuse⟩ := second
      refine ⟨later.trans later', excuse.imp_right ?_⟩
      intro none both
      obtain ⟨h', hash'⟩ := both.2
      exact none ⟨h', (later.treeHashOf within' h').mpr hash'⟩
  · intro w₁ first
    exact ⟨first.1, first.2.imp_right fun none both => none both.1⟩

theorem perform_builtClient (call : ClientCall) (client : BuiltClient c) :
    Exec.wp (Client.perform call) (fun _ => BuiltClient) BuiltClient c := by
  cases call with
  | empty =>
      refine client.keep ?_
      intro t ht
      rw [List.mem_singleton.mp ht]
      exact Within.empty _
  | add i key value =>
      refine wp_numbered client fun t ht => wp_keepNew client ?_
      refine client.built.changed (client.trees t ht) ?_
      intro n h
      cases h
      exact .leaf value
  | delete i key =>
      refine wp_numbered client fun t ht => wp_keepNew client ?_
      rw [WorkingTree.delete]
      split
      next => exact ⟨BuiltLater.refl client.built, client.trees t ht⟩
      next => exact client.built.changed (client.trees t ht) (by simp)
  | findTree i key =>
      refine wp_numbered client fun t ht => wp_keepRead Option.toList client ?_
      refine Exec.wp_mono (client.built.findTree (client.trees t ht) key) ?_ fun _ h => h.elim
      intro found w h
      exact ⟨h.1, fun t' ht' => h.2 t' (Option.mem_toList.mp ht')⟩
  | list i offset length key =>
      refine wp_numbered client fun t ht => wp_keepRead (List.map Prod.snd) client ?_
      refine Exec.wp_mono (client.built.list (client.trees t ht) offset length key) ?_ fun _ h => h
      intro children w h
      refine ⟨h.1, ?_⟩
      intro t' ht'
      obtain ⟨q, hq, rfl⟩ := List.mem_map.mp ht'
      exact h.2 q hq
  | foldIter i depth key =>
      refine wp_numbered client fun t ht => ?_
      rw [Exec.wp_bind, wp_clientWorld, WorkingTree.foldIter, Exec.wp_bind]
      refine Exec.wp_mono (client.built.findTree (client.trees t ht) key) ?_ fun _ h => h.elim
      intro found w h
      obtain ⟨rfl, within⟩ := h
      have started : ∀ walker, WalkerWithin c.world.heap walker →
          BuiltClient { c with walkers := c.walkers ++ [walker] } := by
        intro walker hwalker
        refine ⟨client.built, client.trees, ?_⟩
        intro walker' mem
        rcases List.mem_append.mp mem with mem | mem
        · exact client.walkers walker' mem
        · rw [List.mem_singleton.mp mem]
          exact hwalker
      cases found with
      | none => exact started _ (.empty _ _)
      | some root => exact started _ ((WalkerWithin.empty _ _).pushNew (within root rfl))
  | next j rounds =>
      refine wp_numbered client fun walker hwalker => ?_
      rw [Exec.wp_bind, wp_clientWorld]
      refine Exec.wp_mono (client.built.next rounds (client.walkers walker hwalker)) ?_ ?_
      · intro r w h
        obtain ⟨rfl, items, within⟩ := h
        have moved : BuiltClient { c with walkers := c.walkers.set j r.2 } := by
          refine ⟨client.built, client.trees, ?_⟩
          intro walker' mem
          rcases List.mem_or_eq_of_mem_set mem with mem | rfl
          · exact client.walkers walker' mem
          · exact within
        refine moved.keep ?_
        intro t ht
        obtain ⟨item, hitem, rfl⟩ := Option.map_eq_some_iff.mp (Option.mem_toList.mp ht)
        exact items item hitem
      · intro w h
        rw [h]
        exact client
  | equal i j =>
      refine wp_numbered client fun t ht => wp_numbered client fun t' ht' => ?_
      rw [Exec.wp_bind, wp_clientWorld]
      refine Exec.wp_mono (client.built.equal (client.trees t ht) (client.trees t' ht')) ?_ ?_
      · exact fun _ w h => client.ofWorld h.1
      · exact fun w h => client.ofWorld h.1

theorem Client.Runs.built (run : Client.Runs c c') (client : BuiltClient c) : BuiltClient c' := by
  induction run with
  | refl => exact client
  | tail _ step ih =>
      obtain ⟨call, rfl⟩ := step
      exact Exec.wp_state (perform_builtClient call ih)

theorem builtClient_start {repo : S} (inv : Inv repo) (unknown : ∀ id, ¬ Known S id) :
    BuiltClient (.start repo) where
  built := (builtSession_new inv unknown).built
  trees := fun t ht => by cases ht
  walkers := fun walker hwalker => by cases hwalker

end Iterating

/-! ## The law -/

section Laws

variable {S : Type} [KeyValueStoreBackend S] {w : World S}

/-- The trees have the same keys with the same values. -/
def SameBindings (w : World S) (t t' : WorkingTree) : Prop :=
  ∀ key value, (t.find key w).1 = .ok (some value) ↔ (t'.find key w).1 = .ok (some value)

/-- Two values with the same bytes, or two directories with the same bindings. -/
def SameContents (w : World S) : WorkingTree → WorkingTree → Prop
  | .value v, .value v' => v = v'
  | .tree root, .tree root' => SameBindings w (.tree root) (.tree root')
  | _, _ => False

/-- The hash tells the trees apart, or they are the same and have a hash. -/
def Told (w : World S) : WorkingTree → WorkingTree → Prop
  | .value v, .value v' => v = v'
  | .tree root, .tree root' =>
      SameBindings w (.tree root) (.tree root') → Divisible w.heap root
  | .tree root, .value _ => root.isEmpty = false
  | .value _, .tree root => root.isEmpty = false

variable [LawfulStore S] [Digest]

theorem Built.sameBindings_iff (built : Built w) {t t' : WorkingTree}
    (within : Within w.heap t.root) (within' : Within w.heap t'.root) :
    SameBindings w t t' ↔
      ∀ key, treeValueAt w.heap t.root key = treeValueAt w.heap t'.root key := by
  constructor
  · intro same key
    refine Option.ext fun value => ?_
    rw [← built.find within, ← built.find within']
    exact same key value
  · intro same key value
    rw [built.find within, built.find within', same]

omit [KeyValueStoreBackend S] [LawfulStore S] [Digest] in
/-- Nothing is below an empty directory only. -/
theorem Canonical.isEmpty_iff {heap : Heap} (canonical : Canonical heap) {root : Tree}
    (within : Within heap root) :
    root.isEmpty = true ↔ ∀ key, treeValueAt heap .empty key = treeValueAt heap root key := by
  constructor
  · intro empty key
    have here : root = .empty := OrdMap.ext_entries (List.isEmpty_iff.mp empty)
    rw [here]
  · intro same
    by_contra nonempty
    obtain ⟨name, a, ha⟩ := OrdMap.isEmpty_eq_false_iff.mp (by simpa using nonempty)
    obtain ⟨key, value, found⟩ := canonical.exists_valueAt (within.get ha)
    have none : treeValueAt heap .empty (name :: key) = none := rfl
    rw [same, treeValueAt, ha, Option.bind_some, found] at none
    cases none

/-- `equal` answers yes to trees whose roots have the same bindings and can be hashed. -/
theorem Built.equal_true_iff (built : Built w) {t t' : WorkingTree}
    (within : Within w.heap t.root) (within' : Within w.heap t'.root)
    (inj : Set.InjOn Digest.blake2b
      {s | HashedBelow w.heap t.root s ∨ HashedBelow w.heap t'.root s})
    (short : ShortBelow w.heap t.root) (short' : ShortBelow w.heap t'.root)
    (room : ¬ Exhausted (t.equal t' w).2.repo) :
    (t.equal t' w).1 = .ok true ↔ SameBindings w t t' ∧ Divisible w.heap t.root := by
  have unknown : ∀ a, Unknown w a := fun a id _ => built.unknown id
  rw [built.sameBindings_iff within within', ← exists_treeHashOf_iff built.canonical unknown within]
  constructor
  · intro yes
    have run : t.equal t' w = (.ok true, (t.equal t' w).2) := Prod.ext yes rfl
    obtain ⟨_, h, h', hash, hash', same⟩ := Exec.wp_ok (built.equal within within') run
    have same : h = h' := of_decide_eq_true same.symm
    rw [← same] at hash'
    exact ⟨treeValueAt_of_hash built.canonical unknown inj within within' short short' hash hash',
      h, hash⟩
  · intro h
    obtain ⟨same, h, hash⟩ := h
    have hash' := (treeHashOf_of_bindings built.canonical unknown within within' same).mp hash
    rcases Exec.wp_outcome (built.equal within within') with ⟨b, yes, _, k, k', hk, hk', hb⟩ | failed
    · have left : k = h := hk.2.unique hash.2
      have right : k' = h := hk'.2.unique hash'.2
      rw [yes, hb, left, right]
      exact congrArg Outcome.ok (decide_eq_true rfl)
    · exact absurd failed.2 (not_or_intro room (not_not_intro ⟨⟨h, hash⟩, h, hash'⟩))

/-- `equal` tells contents apart in those cases, and no others. -/
theorem BuiltClient.equal_iff {c : Client S} {t t' : WorkingTree} (client : BuiltClient c)
    (ht : t ∈ c.trees) (ht' : t' ∈ c.trees)
    (inj : Set.InjOn Digest.blake2b
      {s | HashedBelow c.world.heap t.root s ∨ HashedBelow c.world.heap t'.root s})
    (short : ∀ key value, (t.find key c.world).1 = .ok (some value) →
      ∀ name ∈ key, ShortName name)
    (short' : ∀ key value, (t'.find key c.world).1 = .ok (some value) →
      ∀ name ∈ key, ShortName name)
    (room : ¬ Exhausted (t.equal t' c.world).2.repo) :
    ((t.equal t' c.world).1 = .ok true ↔ SameContents c.world t t') ↔ Told c.world t t' := by
  have built := client.built
  have within := client.trees t ht
  have within' := client.trees t' ht'
  have names : ShortBelow c.world.heap t.root := fun key value h =>
    short key value ((built.find within key value).mpr h)
  have names' : ShortBelow c.world.heap t'.root := fun key value h =>
    short' key value ((built.find within' key value).mpr h)
  rw [built.equal_true_iff within within' inj names names' room]
  cases t with
  | value v =>
      have divisible : Divisible c.world.heap (WorkingTree.value v).root := divisible_empty _
      cases t' with
      | value v' =>
          have same : SameBindings c.world (.value v) (.value v') :=
            (built.sameBindings_iff within within').mpr fun _ => rfl
          simp [SameContents, Told, same, divisible]
      | tree root =>
          have same : SameBindings c.world (.value v) (.tree root) ↔ root.isEmpty = true :=
            (built.sameBindings_iff within within').trans
              (built.canonical.isEmpty_iff within').symm
          simp [SameContents, Told, same, divisible]
  | tree root =>
      cases t' with
      | value v =>
          have same : SameBindings c.world (.tree root) (.value v) ↔ root.isEmpty = true :=
            ((built.sameBindings_iff within within').trans (forall_congr' fun key => eq_comm)).trans
              (built.canonical.isEmpty_iff within).symm
          have divisible : root.isEmpty = true → Divisible c.world.heap root := by
            intro empty
            have here : root = .empty := OrdMap.ext_entries (List.isEmpty_iff.mp empty)
            rw [here]
            exact divisible_empty _
          simp only [SameContents, Told, same, iff_false, not_and]
          constructor
          · intro never
            by_contra empty
            have empty : root.isEmpty = true := by simpa using empty
            exact never empty (divisible empty)
          · intro nonempty empty
            rw [nonempty] at empty
            cases empty
      | tree root' => exact and_iff_left_iff_imp

end Laws

/-- For any two trees that were made from empty ones by adding, deleting, finding, listing and
folding, `equal` says whether they have the same contents if and only if they are two values with the
same bytes, or a value and a directory with something in it, or two directories that can be
hashed if they are the same. -/
theorem equal_law_iff {S : Type} [KeyValueStoreBackend S] [LawfulStore S] [Digest] {repo : S}
    {c : Client S} {t t' : WorkingTree} (inv : Inv repo) (run : Client.Runs (.start repo) c)
    (ht : t ∈ c.trees) (ht' : t' ∈ c.trees)
    (inj : Set.InjOn Digest.blake2b
      {s | HashedBelow c.world.heap t.root s ∨ HashedBelow c.world.heap t'.root s})
    (short : ∀ key value, (t.find key c.world).1 = .ok (some value) →
      ∀ name ∈ key, ShortName name)
    (short' : ∀ key value, (t'.find key c.world).1 = .ok (some value) →
      ∀ name ∈ key, ShortName name)
    (room : ¬ Exhausted (t.equal t' c.world).2.repo) :
    ((t.equal t' c.world).1 = .ok true ↔ SameContents c.world t t') ↔ Told c.world t t' := by
  have client := @Client.Runs.built S _ (forgetful ‹_›) _ (.start repo) c run
    (@builtClient_start S _ (forgetful ‹_›) _ repo inv fun _ h => h)
  exact @BuiltClient.equal_iff S _ (forgetful ‹_›) _ c t t' client ht ht' inj short short' room

/-- The store in memory, as long as no id was freed: handing out ids only fails when the vector
of hashes is full. -/
@[reducible] def System.neverFreed [Digest] : LawfulStore System where
  Inv := fun s => Inv s ∧ s.leaving = []
  Live := Live
  Known := fun _ => True
  Exhausted := fun s => s.store.hashes.hashes.length = MAX_HASHES
  vacant := by
    intro hash s inv
    obtain ⟨inv, noneFree⟩ := inv
    have ran := runScheduled_ran inv
    have none : s.runScheduled.leaving = [] := by
      have perm := ran.leaving
      rw [noneFree] at perm
      exact perm.eq_nil
    have more : Exec.wp (getVacantEntryHash hash) (fun _ s' => s'.leaving = [])
        (fun s' => s'.leaving = [] ∧ s'.store.hashes.hashes.length = MAX_HASHES) s := by
      rw [getVacantEntryHash, Exec.wp_bind, Exec.wp_modify, onHashes, Exec.wp_onPart,
        HashValueStore.getVacantEntryHash, Exec.wp_bind]
      refine HashValueStore.wp_getFreeId ?_ ?_
      · intro id rest hqueue
        have queued : id ∈ s.runScheduled.leaving := by
          refine free_leaving (List.mem_append_left _ ?_)
          rw [System.queue, hqueue]
          exact List.mem_cons_self
        rw [none] at queued
        cases queued
      · intro _
        refine Exec.wp_mono (HashValueStore.freshEntry_spec hash ran.inv.bounded) ?_ ?_
        · intro id h fresh
          show (h.freeIds.getD [] ++ _) ++ _ = []
          rw [fresh.2.1]
          exact none
        · intro h full
          rw [full.1]
          exact ⟨none, full.2⟩
    refine Exec.wp_mono (Exec.wp_and (LawfulStore.vacant hash s inv) more) ?_ ?_
    · intro id s' h
      obtain ⟨⟨inv', fresh, live, hash, value, keeps⟩, free'⟩ := h
      exact ⟨⟨inv', free'⟩, fresh, live, hash, value, keeps.ofLive (v := LawfulStore.toStoreView) rfl⟩
    · intro s' h
      obtain ⟨⟨inv', _, keeps⟩, free', full⟩ := h
      exact ⟨⟨inv', free'⟩, full, keeps.ofLive (v := LawfulStore.toStoreView) rfl⟩

section Sample

local instance equalityDigest : Digest := sampleDigest

/-- A directory with two values is listed. -/
def listed : Client System :=
  (Client.start (.new false [])).after
    [.empty, .add 0 ["a"] [1], .add 1 ["b"] [2], .list 2 none none []]

theorem listed_trees : .value [1] ∈ listed.trees ∧ .value [2] ∈ listed.trees := by
  constructor <;> decide +kernel

/-- Two directories with the same two values, which were bothOrders in different orders. -/
def bothOrders : Client System :=
  (Client.start (.new false [])).after
    [.empty, .add 0 ["a"] [1], .add 1 ["b"] [2], .add 0 ["b"] [2], .add 3 ["a"] [1]]

def aThenB : Tree := (OrdMap.empty.insert "a" 0).insert "b" 1

def bThenA : Tree := (OrdMap.empty.insert "b" 2).insert "a" 3

theorem bothOrders_trees : .tree aThenB ∈ bothOrders.trees ∧ .tree bThenA ∈ bothOrders.trees := by
  constructor <;> decide +kernel

/-- A directory with these values, at nodes that keep no hash. -/
structure HasBoth (root : Tree) (a b : Addr) : Prop where
  entries : root.entries = [("a", a), ("b", b)]
  first : bothOrders.world.heap.node a = getLeaf (.blob [1])
  second : bothOrders.world.heap.node b = getLeaf (.blob [2])
  made : a < bothOrders.world.heap.next ∧ b < bothOrders.world.heap.next

theorem hasBoth_aThenB : HasBoth aThenB 0 1 :=
  ⟨by decide +kernel, by decide +kernel, by decide +kernel, by decide +kernel⟩

theorem hasBoth_bThenA : HasBoth bThenA 3 2 :=
  ⟨by decide +kernel, by decide +kernel, by decide +kernel, by decide +kernel⟩

theorem merkleAt_blob {heap : Heap} {a : Addr} {value : ContextValue}
    (entry : (heap.node a).entry = some (.blob value)) :
    merkleAt heap a = Digest.blake2b (blobString value) := by
  have spec : Merkle heap a (merkleAt heap a) := Classical.epsilon_spec ⟨_, .blob entry⟩
  generalize merkleAt heap a = h at spec
  cases spec with
  | blob entry' =>
      rw [entry] at entry'
      cases entry'
      rfl
  | tree entry' =>
      rw [entry] at entry'
      cases entry'

/-- The bindings of such a directory. -/
def bothBindings : List Binding :=
  [("a", .leaf, Digest.blake2b (blobString [1])), ("b", .leaf, Digest.blake2b (blobString [2]))]

/-- What is hashed of it. -/
def bothStrings : List Bytes := [shortString bothBindings, blobString [1], blobString [2]]

theorem bothStrings_inj : Set.InjOn Digest.blake2b {s | s ∈ bothStrings} := by
  have nodup : (bothStrings.map Digest.blake2b).Nodup := by decide +kernel
  exact fun s hs s' hs' heq => List.inj_on_of_nodup_map nodup hs hs' heq

namespace HasBoth

variable {root : Tree} {a b : Addr}

theorem get (both : HasBoth root a b) {name : KeyFragment} {c : Addr}
    (get : root.get name = some c) : (name = "a" ∧ c = a) ∨ (name = "b" ∧ c = b) := by
  have mem := OrdMap.mem_entries.mpr get
  rw [both.entries] at mem
  simpa using mem

theorem entry (both : HasBoth root a b) {name : KeyFragment} {c : Addr}
    (get : root.get name = some c) : ∃ value, value ∈ [[1], [2]] ∧
      (bothOrders.world.heap.node c).entry = some (.blob value) := by
  rcases both.get get with ⟨-, rfl⟩ | ⟨-, rfl⟩
  · exact ⟨[1], by simp, by rw [both.first]; rfl⟩
  · exact ⟨[2], by simp, by rw [both.second]; rfl⟩

theorem hashed (both : HasBoth root a b) {s : Bytes}
    (h : HashedBelow bothOrders.world.heap root s) : s ∈ bothStrings := by
  have first : merkleAt bothOrders.world.heap a = Digest.blake2b (blobString [1]) :=
    merkleAt_blob (by rw [both.first]; rfl)
  have second : merkleAt bothOrders.world.heap b = Digest.blake2b (blobString [2]) :=
    merkleAt_blob (by rw [both.second]; rfl)
  have bindings : merkleBindings bothOrders.world.heap root = bothBindings := by
    simp only [merkleBindings, both.entries, List.map, both.first, both.second, first, second]
    rfl
  cases h with
  | self hashed =>
      rw [bindings] at hashed
      cases hashed with
      | self string =>
          rw [string.unique (.short (by decide))]
          exact List.mem_cons_self
      | below length => exact absurd length (by decide)
  | value get entry =>
      obtain ⟨value, mem, here⟩ := both.entry get
      rw [here] at entry
      cases entry
      simp only [List.mem_cons, List.not_mem_nil, or_false] at mem
      rcases mem with rfl | rfl <;> simp [bothStrings]
  | directory get entry =>
      obtain ⟨value, -, here⟩ := both.entry get
      rw [here] at entry
      cases entry

theorem within (both : HasBoth root a b) : Within bothOrders.world.heap root := by
  rw [Within, both.entries, List.forall_mem_cons, List.forall_mem_singleton]
  exact both.made

/-- Only the two names lead to a value. -/
theorem short (both : HasBoth root a b) {key : ContextKey} {value : ContextValue}
    (found : ((WorkingTree.tree root).find key bothOrders.world).1 = .ok (some value)) :
    ∀ name ∈ key, ShortName name := by
  have tight : Tight bothOrders.world.heap := by
    have inside : ∀ c < bothOrders.world.heap.next, ∀ entry ∈ (bothOrders.world.heap.node c).entry,
        entry.Inside [] := by
      decide +kernel
    intro c tree hc hentry p hp
    exact absurd (inside c hc _ hentry p hp) List.not_mem_nil
  have present : Present bothOrders.world root := by
    refine present_of_inside (l := [a, b]) ?_ ?_
    · rw [Entry.Inside, both.entries]
      simp
    · rw [List.forall_mem_cons, List.forall_mem_singleton]
      exact ⟨⟨.blob [1], by rw [both.first]; rfl, trivial⟩,
        ⟨.blob [2], by rw [both.second]; rfl, trivial⟩⟩
  rcases key with _ | ⟨name, rest⟩
  · simp
  · rw [find_some_iff (t := .tree root) tight both.within present (List.cons_ne_nil name rest)] at found
    cases get : root.get name with
    | none =>
        rw [WorkingTree.root, treeAnswer_none _ get] at found
        cases found
    | some c =>
        obtain ⟨value', -, entry⟩ := both.entry get
        rw [WorkingTree.root, treeAnswer_some _ get, content_entry _ entry] at found
        rcases rest with _ | ⟨second, rest⟩
        · rcases both.get get with ⟨rfl, -⟩ | ⟨rfl, -⟩ <;> simp [ShortName] <;> decide
        · cases found

theorem divisible (both : HasBoth root a b) : Divisible bothOrders.world.heap root := by
  intro key
  left
  cases key with
  | nil =>
      show root.entries.length ≤ 256
      rw [both.entries]
      exact show 2 ≤ 256 by decide
  | cons name rest =>
      have none : rawTree bothOrders.world.heap root (name :: rest) = .empty := by
        rw [rawTree]
        cases get : root.get name with
        | none => rfl
        | some c =>
            obtain ⟨value, -, entry⟩ := both.entry get
            simp only [entry]
      rw [none]
      exact Nat.zero_le 256

end HasBoth

/-- The order of additions does not matter. -/
theorem equal_law_iff_added :
    SameContents bothOrders.world (.tree aThenB) (.tree bThenA) := by
  have inv : Inv (System.new false []) ∧ (System.new false []).leaving = [] :=
    ⟨System.inv_new false [], rfl⟩
  have run : Client.Runs (.start (.new false [])) bothOrders := Client.runs_after _ _
  have yes : ((WorkingTree.tree aThenB).equal (.tree bThenA) bothOrders.world).1 = .ok true := by
    decide +kernel
  refine ((@equal_law_iff System _ System.neverFreed _ _ _ _ _ inv run bothOrders_trees.1 bothOrders_trees.2
    ?_ (fun _ _ => hasBoth_aThenB.short) (fun _ _ => hasBoth_bThenA.short) ?_).mpr
      fun _ => hasBoth_aThenB.divisible).mp yes
  · exact bothStrings_inj.mono fun s hs => hs.elim hasBoth_aThenB.hashed hasBoth_bThenA.hashed
  · show ¬ (_ = MAX_HASHES)
    decide +kernel

/-- Different values are equal. -/
theorem equal_of_values : Client.Runs (.start (.new false [])) listed ∧
    .value [1] ∈ listed.trees ∧ .value [2] ∈ listed.trees ∧
    ((WorkingTree.value [1]).equal (.value [2]) listed.world).1 = .ok true ∧
    ¬ (((WorkingTree.value [1]).equal (.value [2]) listed.world).1 = .ok true ↔
      SameContents listed.world (.value [1]) (.value [2])) := by
  have yes : ((WorkingTree.value [1]).equal (.value [2]) listed.world).1 = .ok true := by
    decide +kernel
  refine ⟨Client.runs_after _ _, listed_trees.1, listed_trees.2, yes, ?_⟩
  intro tells
  have same : ([1] : ContextValue) = [2] := tells.mp yes
  exact absurd same (by decide)

end Sample

end NodeFuzzer
