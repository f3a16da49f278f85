import NodeFuzzer.Context.Fold

/-!
# Listing a directory

`list` reads the nodes of a directory in the order of their names, and the iterator of a fold
over depth 1 reads them in the same order.  A node keeps the entry that was loaded for it.
So whatever is looked up again is found where it is, and the pages of a list are its parts.
-/

namespace NodeFuzzer

variable {S : Type} {w w' w'' : World S}

/-! ## What was loaded stays -/

/-- A later state in which the nodes have the entries they had. -/
structure Keeping (w w' : World S) : Prop where
  next : w.heap.next ≤ w'.heap.next
  entry : ∀ {a e}, a < w.heap.next → (w.heap.node a).entry = some e →
    (w'.heap.node a).entry = some e

namespace Keeping

theorem refl (w : World S) : Keeping w w := ⟨le_refl _, fun _ h => h⟩

theorem trans (h : Keeping w w') (h' : Keeping w' w'') : Keeping w w'' :=
  ⟨h.next.trans h'.next,
    fun ha hentry => h'.entry (Nat.lt_of_lt_of_le ha h.next) (h.entry ha hentry)⟩

end Keeping

theorem Keeping.setEntry {a : Addr} {entry : Entry} (h : Keeping w w')
    (none : (w.heap.node a).entry = none) :
    Keeping w { w' with heap := w'.heap.set a { w'.heap.node a with entry := some entry } } where
  next := h.next
  entry := by
    intro b e hb hentry
    by_cases hba : b = a
    · rw [hba, none] at hentry
      cases hentry
    · rw [Heap.set_node_of_ne hba]
      exact h.entry hb hentry

variable [KeyValueStoreBackend S]

theorem nodeEntry_keeping (a : Addr) :
    Exec.wp (TezedgeIndex.nodeEntry a)
      (fun entry w' => Keeping w w' ∧ (w'.heap.node a).entry = some entry) (fun _ => True) w := by
  rw [TezedgeIndex.nodeEntry, Exec.wp_bind, Call.readNode, Exec.wp_gets]
  cases hentry : (w.heap.node a).entry with
  | some entry => exact ⟨Keeping.refl w, hentry⟩
  | none =>
      cases (w.heap.node a).entryHash with
      | none => trivial
      | some id =>
          have put : ∀ {w' : World S} (entry : Entry), Keeping w w' → Keeping w
                { w' with heap := w'.heap.set a { w'.heap.node a with entry := some entry } } ∧
              ((w'.heap.set a { w'.heap.node a with entry := some entry }).node a).entry =
                some entry :=
            fun entry h => ⟨h.setEntry hentry, by rw [Heap.set_node_self]⟩
          show Exec.wp (TezedgeIndex.getEntry id >>= _) _ _ w
          rw [Exec.wp_bind, TezedgeIndex.getEntry, Exec.wp_bind, Exec.wp_mapErr,
            TezedgeIndex.findEntry, Exec.wp_bind]
          refine Exec.wp_query _ ?_ fun _ _ => trivial
          intro bytes _
          cases bytes with
          | none => trivial
          | some value =>
              rw [Exec.wp_bind]
              cases value with
              | tree entries =>
                  refine @put { w with heap := loadHeap w.heap entries } _ ?_
                  refine ⟨Nat.le_add_right _ _, ?_⟩
                  intro b e hb h
                  rw [loadHeap, Heap.allocAll_node_of_lt hb]
                  exact h
              | blob value => exact put _ (Keeping.refl w)
              | commit commit => exact put _ (Keeping.refl w)
              | invalid => trivial

/-- A directory that was found is found again, and nothing is loaded. -/
theorem findRawTree_again {root : Tree} (tight : Tight w.heap) (within : Within w.heap root)
    (key : ContextKey) :
    Exec.wp (TezedgeIndex.findRawTree root key)
      (fun tree w' => Keeping w w' ∧
        ∀ {w''}, Keeping w' w'' → TezedgeIndex.findRawTree root key w'' = (.ok tree, w''))
      (fun _ => True) w := by
  induction key generalizing w root with
  | nil => exact ⟨Keeping.refl w, fun _ => rfl⟩
  | cons first rest ih =>
      simp only [TezedgeIndex.findRawTree]
      cases ha : root.get first with
      | none => exact ⟨Keeping.refl w, fun _ => rfl⟩
      | some a =>
          have lt := within.get ha
          show Exec.wp (TezedgeIndex.nodeEntry a >>= _) _ _ w
          rw [Exec.wp_bind]
          refine Exec.wp_mono (Exec.wp_and (nodeEntry_reads tight lt) (nodeEntry_keeping a)) ?_
            fun _ _ => trivial
          intro entry w₁ h
          obtain ⟨⟨reads, within₁, _⟩, keeping, loaded⟩ := h
          have lt₁ := Nat.lt_of_lt_of_le lt reads.next
          cases entry with
          | tree tree =>
              refine Exec.wp_mono (ih reads.tight (within₁ rfl)) ?_ fun _ _ => trivial
              intro found w₂ h
              obtain ⟨keeping₂, again⟩ := h
              refine ⟨keeping.trans keeping₂, ?_⟩
              intro w'' later
              show (TezedgeIndex.nodeEntry a >>= _) w'' = _
              rw [Exec.bind_ok (nodeEntry_loaded ((keeping₂.trans later).entry lt₁ loaded))]
              exact again later
          | blob value =>
              refine ⟨keeping, ?_⟩
              intro w'' later
              exact Exec.bind_ok (nodeEntry_loaded (later.entry lt₁ loaded))
          | commit commit => trivial

/-- One step further than a directory that is found. -/
theorem findRawTree_concat {root tree : Tree} {key : ContextKey} {w₁ : World S}
    (found : TezedgeIndex.findRawTree root key w = (.ok tree, w₁)) (name : KeyFragment) :
    TezedgeIndex.findRawTree root (key ++ [name]) w = TezedgeIndex.findRawTree tree [name] w₁ := by
  induction key generalizing w root with
  | nil =>
      cases found
      rfl
  | cons first rest ih =>
      rw [List.cons_append, TezedgeIndex.findRawTree]
      rw [TezedgeIndex.findRawTree] at found
      cases ha : root.get first with
      | none =>
          rw [ha] at found
          cases found
          rfl
      | some a =>
          rw [ha] at found
          obtain ⟨entry, w', run, goOn⟩ := Exec.of_bind_ok found
          show (TezedgeIndex.nodeEntry a >>= _) w = _
          rw [Exec.bind_ok run]
          cases entry with
          | tree tree' => exact ih goOn
          | blob value =>
              cases goOn
              rfl
          | commit commit => cases goOn

/-! ## The nodes of a directory -/

/-- What `list` reads of each node. -/
def readChildren (l : List (KeyFragment × Addr)) :
    Call S MerkleError (List (Option (KeyFragment × WorkingTree))) :=
  Exec.mapEach (fun p => do
    let entry ← TezedgeIndex.nodeEntry p.2
    pure (WorkingTree.childTree p.1 entry)) l

theorem readChildren_cons {p : KeyFragment × Addr} {l : List (KeyFragment × Addr)} {entry : Entry}
    {w₁ w₂ : World S} {rest : List (Option (KeyFragment × WorkingTree))}
    (run : TezedgeIndex.nodeEntry p.2 w = (.ok entry, w₁))
    (goOn : readChildren l w₁ = (.ok rest, w₂)) :
    readChildren (p :: l) w = (.ok (WorkingTree.childTree p.1 entry :: rest), w₂) := by
  simp only [readChildren, Exec.mapEach, bind, Exec.bind, run] at goOn ⊢
  simp only [pure, Exec.pure] at goOn ⊢
  rw [goOn]

/-- What a child of a directory is when it was handed out: its node has its entry. -/
structure Child (w : World S) (p : KeyFragment × Addr) (t : WorkingTree) (c : Contents) :
    Prop where
  shows : t.Shows w c
  lt : p.2 < w.heap.next
  loaded : ∃ entry, (w.heap.node p.2).entry = some entry ∧
    WorkingTree.childTree p.1 entry = some (p.1, t)

theorem Child.later {p : KeyFragment × Addr} {t : WorkingTree} {c : Contents}
    (h : Child w p t c) (reads : Reads w w') (keeping : Keeping w w') : Child w' p t c where
  shows := reads.showsWorkingTree h.shows
  lt := Nat.lt_of_lt_of_le h.lt reads.next
  loaded := by
    obtain ⟨entry, hentry, child⟩ := h.loaded
    exact ⟨entry, keeping.entry h.lt hentry, child⟩

/-- The children of a directory, as `list` reads them and as the iterator yields them. -/
theorem children_run {child : KeyFragment → Contents} (l : List (KeyFragment × Addr))
    (tight : Tight w.heap) (kinded : Kinded w)
    (shows : ∀ p ∈ l, p.2 < w.heap.next ∧ Shows w (content w (.node p.2)) (child p.1)) :
    ∃ ts w', readChildren l w = (.ok (ts.map some), w') ∧ Reads w w' ∧ Kinded w' ∧ Keeping w w' ∧
      List.Forall₂ (fun p q => q.1 = p.1 ∧ Child w' p q.2 (child p.1)) l ts ∧
      ∀ {level : TreeWalkerLevel} {below items w''}, level.key = [] → level.currentDepth = 0 →
        level.yieldSelf = false → level.childrenIter = some l →
        Yields (some (.eq 1)) below w' items w'' →
        Yields (some (.eq 1)) (level :: below) w (ts.map (fun q => ([q.1], q.2)) ++ items) w'' := by
  induction l generalizing w with
  | nil =>
      refine ⟨[], w, rfl, Reads.refl tight, kinded, Keeping.refl w, .nil, ?_⟩
      intro level below items w'' _ _ yielded iter rest
      exact .pop yielded (Or.inr iter) rest
  | cons p l ih =>
      obtain ⟨lt, here⟩ := shows p List.mem_cons_self
      obtain ⟨entry, t, w₁, run, asTree, named, reads₁, kinded₁, shows₁⟩ :=
        nodeTree_shows tight kinded lt here
      obtain ⟨keeping₁, loaded⟩ := Exec.wp_ok (nodeEntry_keeping p.2) run
      have later : ∀ q ∈ l, q.2 < w₁.heap.next ∧ Shows w₁ (content w₁ (.node q.2)) (child q.1) := by
        intro q hq
        obtain ⟨lt, here⟩ := shows q (List.mem_cons_of_mem _ hq)
        exact ⟨Nat.lt_of_lt_of_le lt reads₁.next, reads₁.shows lt here⟩
      obtain ⟨ts, w₂, goOn, reads₂, kinded₂, keeping₂, each, yields⟩ :=
        ih reads₁.tight kinded₁ later
      have this : Child w₁ p t (child p.1) :=
        ⟨shows₁, Nat.lt_of_lt_of_le lt reads₁.next, entry, loaded, named p.1⟩
      refine ⟨(p.1, t) :: ts, w₂, ?_, reads₁.trans reads₂, kinded₂, keeping₁.trans keeping₂,
        .cons ⟨rfl, this.later reads₂ keeping₂⟩ each, ?_⟩
      · rw [readChildren_cons run goOn, named]
        rfl
      · intro level below items w'' key depth yielded iter rest
        refine .push yielded iter asTree ?_
        rw [key, depth]
        -- At depth 1 the tree is yielded, and the iterator does not go on.
        exact .self rfl (.pop rfl (Or.inl rfl) (yields rfl rfl yielded rfl rest))

/-- Reading children keeps what was loaded, and reads all of them. -/
theorem readChildren_keeping (l : List (KeyFragment × Addr)) :
    Exec.wp (readChildren l) (fun r w' => Keeping w w' ∧ r.length = l.length)
      (fun _ => True) w := by
  refine Exec.wp_mono (Exec.wp_mapEach (E := fun _ => True)
    (I := fun done r w' => Keeping w w' ∧ r.length = done.length) ⟨Keeping.refl w, rfl⟩ ?_)
    (fun _ _ h => h) fun _ h => h
  intro done p r w₁ _ h
  obtain ⟨keeping, length⟩ := h
  rw [Exec.wp_bind]
  refine Exec.wp_mono (nodeEntry_keeping p.2) ?_ fun _ h => h
  intro entry w₂ h
  refine ⟨keeping.trans h.1, ?_⟩
  rw [List.length_append, List.length_append, length]
  rfl

/-- Reading a list of children is reading its parts. -/
theorem readChildren_append {l₁ l₂ : List (KeyFragment × Addr)}
    {r : List (Option (KeyFragment × WorkingTree))} (run : readChildren (l₁ ++ l₂) w = (.ok r, w'')) :
    ∃ r₁ r₂ w', r = r₁ ++ r₂ ∧ readChildren l₁ w = (.ok r₁, w') ∧
      readChildren l₂ w' = (.ok r₂, w'') := by
  induction l₁ generalizing w r with
  | nil => exact ⟨[], r, w, rfl, rfl, run⟩
  | cons p l₁ ih =>
      obtain ⟨o, w₁, hp, run⟩ := Exec.of_bind_ok run
      obtain ⟨rest, w₂, run, done⟩ := Exec.of_bind_ok run
      cases done
      obtain ⟨r₁, r₂, w', rfl, run₁, run₂⟩ := ih run
      exact ⟨o :: r₁, r₂, w', rfl, (Exec.bind_ok hp).trans (Exec.bind_ok run₁), run₂⟩

namespace WorkingTree

/-- What `list` returns of a directory that is found. -/
theorem list_run {self : WorkingTree} {tree : Tree} {key : ContextKey} {offset length : Option Nat}
    {ts : List (KeyFragment × WorkingTree)}
    (found : TezedgeIndex.findRawTree self.root key w = (.ok tree, w'))
    (read : readChildren ((tree.entries.drop (offset.getD 0)).take (length.getD tree.len)) w' =
      (.ok (ts.map some), w'')) :
    self.list offset length key w = (.ok ts, w'') := by
  have all : (tree.entries.drop (offset.getD 0)).take (min (length.getD tree.len) tree.len) =
      (tree.entries.drop (offset.getD 0)).take (length.getD tree.len) := by
    rw [List.take_eq_take_iff, List.length_drop]
    have len : tree.len = tree.entries.length := rfl
    omega
  have some : (ts.map some).reduceOption = ts := by simp [List.reduceOption]
  rw [list, Exec.bind_ok found]
  simp only [all]
  refine (Exec.bind_ok read).trans ?_
  rw [some]
  rfl

/-- The pages of a list, one after the other, until one is empty. -/
def pages (self : WorkingTree) (n : Nat) (key : ContextKey) :
    Nat → Nat → Call S MerkleError (List (KeyFragment × WorkingTree))
  | 0, _ => Exec.abort
  | fuel + 1, offset => do
      let page ← self.list (some offset) (some n) key
      if page.isEmpty then pure []
      else do
        let rest ← self.pages n key fuel (offset + n)
        pure (page ++ rest)

/-- The pages from an offset are what is left of the directory. -/
theorem pages_run {self : WorkingTree} {tree : Tree} {key : ContextKey} {n : Nat} (hn : 0 < n)
    (again : ∀ {w'}, Keeping w w' →
      TezedgeIndex.findRawTree self.root key w' = (.ok tree, w')) (offset : Nat)
    {ts : List (KeyFragment × WorkingTree)} {w₁ w₂ : World S} (later : Keeping w w₁)
    (read : readChildren (tree.entries.drop offset) w₁ = (.ok (ts.map some), w₂)) {fuel : Nat}
    (hfuel : (tree.entries.drop offset).length < fuel) :
    self.pages n key fuel offset w₁ = (.ok ts, w₂) := by
  induction fuel generalizing offset ts w₁ with
  | zero => exact absurd hfuel (Nat.not_lt_zero _)
  | succ fuel ih =>
      have split : (tree.entries.drop offset).take n ++ tree.entries.drop (offset + n) =
          tree.entries.drop offset := by
        rw [← List.drop_drop, List.take_append_drop]
      rw [← split] at read
      obtain ⟨r₁, r₂, w', heq, run₁, run₂⟩ := readChildren_append read
      obtain ⟨ts₁, ts₂, rfl, rfl, rfl⟩ := List.map_eq_append_iff.mp heq
      obtain ⟨keeping, length⟩ := Exec.wp_ok (readChildren_keeping _) run₁
      have page : self.list (some offset) (some n) key w₁ = (.ok ts₁, w') :=
        list_run (again later) run₁
      rw [List.length_map, List.length_take] at length
      rw [pages, Exec.bind_ok page]
      cases ts₁ with
      | nil =>
          -- Nothing is left after an empty page.
          have none : tree.entries.drop (offset + n) = [] := by
            rw [List.drop_eq_nil_iff]
            simp only [List.length_nil, List.length_drop] at length
            omega
          rw [none] at run₂
          obtain ⟨rfl, rfl⟩ : ts₂ = [] ∧ w' = w₂ := by
            cases ts₂ with
            | nil =>
                cases run₂
                exact ⟨rfl, rfl⟩
            | cons t ts₂ => cases run₂
          rfl
      | cons t ts₁ =>
          have shorter : (tree.entries.drop (offset + n)).length < fuel := by
            rw [List.length_drop] at hfuel ⊢
            rw [List.length_drop, List.length_cons] at length
            omega
          have rest := ih (offset + n) (later.trans keeping) run₂ shorter
          exact Exec.bind_ok rest

end WorkingTree

/-- Pages of a directory that is not found yet. -/
theorem WorkingTree.pages_found {self : WorkingTree} {tree : Tree} {key : ContextKey}
    (found : TezedgeIndex.findRawTree self.root key w = (.ok tree, w'))
    (again : TezedgeIndex.findRawTree self.root key w' = (.ok tree, w')) (n : Nat) {fuel : Nat}
    (hfuel : 0 < fuel) (offset : Nat) :
    self.pages n key fuel offset w = self.pages n key fuel offset w' := by
  cases fuel with
  | zero => exact absurd hfuel (lt_irrefl 0)
  | succ fuel =>
      have list : self.list (some offset) (some n) key w = self.list (some offset) (some n) key w' :=
        Exec.bind_congr_run (found.trans again.symm)
      rw [pages]
      exact Exec.bind_congr_run list

/-- A value that was handed out is what `find` finds. -/
theorem find_of_shows {t : WorkingTree} {c : Contents} (tight : Tight w.heap)
    (within : Within w.heap t.root) (shows : Shows w (treeContent t.root) c) {key : ContextKey}
    (hkey : key ≠ []) {v : ContextValue} (hv : c.get key = some (.value v)) :
    (t.find key w).1 = .ok (some v) := by
  rw [(find_reads tight within shows.present hkey).1, treeAnswer, shows, hv]
  rfl

/-- A directory that was handed out is what `find_tree` finds. -/
theorem findTree_of_loaded {t : WorkingTree} {tree root : Tree} {key : ContextKey}
    {p : KeyFragment × Addr} (again : TezedgeIndex.findRawTree t.root key w = (.ok tree, w))
    (mem : p ∈ tree.entries) (loaded : (w.heap.node p.2).entry = some (.tree root)) :
    t.findTree (key ++ [p.1]) w = (.ok (if root.isEmpty then none else some (.tree root)), w) := by
  have child : TezedgeIndex.findRawTree tree [p.1] w = (.ok root, w) := by
    simp only [TezedgeIndex.findRawTree, OrdMap.mem_entries.mp mem]
    exact Exec.bind_ok (nodeEntry_loaded loaded)
  rw [WorkingTree.findTree, Exec.bind_ok ((findRawTree_concat again p.1).trans child)]
  cases root.isEmpty <;> rfl

/-- The list of a directory is what a fold over depth 1 yields.  Each value in it is what
`find` finds, and each directory is what `find_tree` finds or is empty.  Its pages, one after
the other, are the list. -/
theorem list_folds {t : WorkingTree} {c : Contents} (tight : Tight w.heap) (kinded : Kinded w)
    (within : Within w.heap t.root) (shows : Shows w (treeContent t.root) c) (key : ContextKey) :
    ∃ ts w', t.list none none key w = (.ok ts, w') ∧
      (∃ n, ∀ rounds calls, n ≤ rounds → n ≤ calls → (do
        let walker ← t.foldIter (some (.eq 1)) key
        walker.collect rounds calls) w = (.ok (ts.map fun q => ([q.1], q.2)), w')) ∧
      (∀ q ∈ ts, match q.2 with
        | .value v => (t.find (key ++ [q.1]) w').1 = .ok (some v)
        | .tree root => t.findTree (key ++ [q.1]) w' =
            (.ok (if root.isEmpty then none else some (.tree root)), w')) ∧
      ∀ n, 0 < n → ∃ k, ∀ fuel, k ≤ fuel → t.pages n key fuel 0 w = (.ok ts, w') := by
  obtain ⟨tree, w₁, found, reads₁, within₁, here⟩ := findRawTree_shows tight within shows key
  have kinded₁ := Exec.wp_ok (findRawTree_kinded tight kinded within key) found
  obtain ⟨keeping₁, again⟩ := Exec.wp_ok (findRawTree_again tight within key) found
  have nodes : ∃ child : KeyFragment → Contents, ∀ p ∈ tree.entries,
      (p.2 < w₁.heap.next ∧ Shows w₁ (content w₁ (.node p.2)) (child p.1)) ∧
        c.get (key ++ [p.1]) = some (child p.1) := by
    rcases here with ⟨names, child, hs, shows₁⟩ | ⟨_, rfl⟩
    · refine ⟨child, ?_⟩
      intro p hp
      have mem : p.1 ∈ names := by
        rw [← Finset.mem_sort (· ≤ ·), ← shows₁.directory_keys]
        exact List.mem_map_of_mem hp
      refine ⟨⟨within₁ p hp, shows₁.directory_child (OrdMap.mem_entries.mp hp)⟩, ?_⟩
      rw [NameTree.get_append, hs, Option.bind_some, NameTree.get_directory_cons, if_pos mem,
        NameTree.get_nil]
    · exact ⟨fun _ => c, nofun⟩
  obtain ⟨child, nodes⟩ := nodes
  obtain ⟨ts, w', run, reads', kinded', keeping', each, yields⟩ :=
    children_run tree.entries reads₁.tight kinded₁ fun p hp => (nodes p hp).1
  have reads := reads₁.trans reads'
  refine ⟨ts, w', ?_, ?_, ?_, ?_⟩
  · refine WorkingTree.list_run found ?_
    have all : (tree.entries.drop (Option.getD none 0)).take (Option.getD none tree.len) =
        tree.entries := List.take_length
    rw [all]
    exact run
  · have start := foldIter_start found (some (.eq 1))
    cases empty : tree.isEmpty with
    | true =>
        -- An empty directory has no children, and no iterator.
        rw [empty, if_pos rfl] at start
        have nothing : tree.entries = [] := List.isEmpty_iff.mp empty
        rw [nothing] at run each
        cases each
        cases run
        obtain ⟨n, done⟩ := (Yields.done w₁ : Yields TreeWalker.empty.depth _ w₁ [] w₁).collect
        refine ⟨n, ?_⟩
        intro rounds calls hrounds hcalls
        rw [Exec.bind_ok start]
        exact done rounds calls hrounds hcalls
    | false =>
        rw [empty, if_neg Bool.false_ne_true] at start
        have done := @yields (.new [] (.tree tree) 0 (some (.eq 1))) [] [] w' rfl rfl rfl rfl (.done w')
        rw [List.append_nil] at done
        obtain ⟨n, done⟩ := @Yields.collect _ _ _ _ (.new [] (.tree tree) (some (.eq 1))) _ done
        refine ⟨n, ?_⟩
        intro rounds calls hrounds hcalls
        rw [Exec.bind_ok start]
        exact done rounds calls hrounds hcalls
  · intro q hq
    obtain ⟨p, hp, hname, this⟩ : ∃ p ∈ tree.entries, q.1 = p.1 ∧ Child w' p q.2 (child p.1) :=
      exists_mem_of_forall₂ each.flip hq
    rw [hname]
    cases ht : q.2 with
    | value v =>
        refine find_of_shows reads.tight (within.mono reads.next) (reads.showsTree within shows)
          (by simp) ?_
        have value := this.shows
        rw [ht] at value
        change child p.1 = .value v at value
        rw [(nodes p hp).2, value]
    | tree root =>
        obtain ⟨entry, loaded, named⟩ := this.loaded
        rw [ht] at named
        refine findTree_of_loaded (again keeping') hp ?_
        cases entry <;> cases named
        exact loaded
  · intro n hn
    refine ⟨tree.entries.length + 1, ?_⟩
    intro fuel hfuel
    rw [WorkingTree.pages_found found (again (Keeping.refl w₁)) n (by omega)]
    exact WorkingTree.pages_run hn again 0 (Keeping.refl w₁) run hfuel

section Sample

local instance listingDigest : Digest := sampleDigest

theorem list_folds_twoLevels : ∃ ts w',
    twoLevelTree.list none none [] twoLevels = (.ok ts, w') ∧
      ∃ k, ∀ fuel, k ≤ fuel → twoLevelTree.pages 1 [] fuel 0 twoLevels = (.ok ts, w') := by
  obtain ⟨ts, w', list, _, _, pages⟩ :=
    list_folds tight_twoLevels kinded_twoLevels within_twoLevelTree shows_twoLevelTree []
  exact ⟨ts, w', list, pages 1 Nat.zero_lt_one⟩

/-- A process whose only node holds an empty directory. -/
def emptyChild : World System := ⟨Heap.empty.alloc (getNonLeaf (.tree .empty)), .new false []⟩

/-- An empty directory is listed, and `find_tree` does not find it. -/
theorem list_of_empty_child :
    let t : WorkingTree := .tree (OrdMap.empty.insert "b" 0)
    (Tight emptyChild.heap ∧ Kinded emptyChild ∧ Within emptyChild.heap t.root ∧
      ∃ c, Shows emptyChild (treeContent t.root) c) ∧
    ¬ ∃ ts w', t.list none none [] emptyChild = (.ok ts, w') ∧
      ∀ q ∈ ts, match q.2 with
        | .value v => (t.find [q.1] w').1 = .ok (some v)
        | .tree root => (t.findTree [q.1] w').1 = .ok (some (.tree root)) := by
  intro t
  refine ⟨⟨?_, ⟨?_, fun _ hvalue => nomatch hvalue⟩, (Within.empty _).insert Nat.zero_lt_one "b",
    .directory {"b"} fun _ => .directory ∅ fun _ => .value [], ?_⟩, ?_⟩
  · intro a tree ha hentry
    have hzero : a = 0 := Nat.lt_one_iff.mp ha
    subst hzero
    cases hentry
    exact Within.empty _
  · intro a ha
    have hzero : a = 0 := Nat.lt_one_iff.mp ha
    subst hzero
    rfl
  · intro key
    show treeAnswer emptyChild (OrdMap.empty.insert "b" 0) key = _
    cases key with
    | nil => rfl
    | cons name key =>
        rw [NameTree.get_directory_cons]
        by_cases hname : name = "b"
        · rw [hname, treeAnswer_insert, if_pos (Finset.mem_singleton_self _)]
          cases key <;> rfl
        · rw [treeAnswer_insert_of_ne hname, if_neg (by simp [hname])]
          rfl
  · intro h
    obtain ⟨ts, w', list, agree⟩ := h
    have run : t.list none none [] emptyChild = (.ok [("b", .tree .empty)], emptyChild) := rfl
    rw [run] at list
    cases list
    have found := agree ("b", .tree .empty) (List.mem_singleton_self _)
    have none : (t.findTree ["b"] emptyChild).1 = .ok none := by decide +kernel
    exact nomatch none.symm.trans found

end Sample

end NodeFuzzer
