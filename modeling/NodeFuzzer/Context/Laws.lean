import NodeFuzzer.Context.Lookup
import NodeFuzzer.Context.InMemory

/-!
# Adding and deleting

`compute_new_root_with_change` walks from the changed key to the root.  At each level it
looks the directory up again and puts the new one in place, or goes on deleting when
nothing is left.  What the new tree holds is `putAnswer` when a node was put in place; when one
was deleted, its values are those that are neither above nor below the key.
-/

namespace NodeFuzzer

open KeyValueStoreBackend

/-! ## Putting a node in place -/

/-- The answers of a tree after something that answers as `new` does was put at a key. -/
def putAnswer (key : ContextKey) (new old : ContextKey → Answer) (q : ContextKey) : Answer :=
  if key <+: q then new (q.drop key.length) else if q <+: key then .directory false else old q

theorem putAnswer_nil (new old : ContextKey → Answer) (q : ContextKey) : putAnswer [] new old q = new q := by
  simp [putAnswer]

theorem putAnswer_append (key : ContextKey) (new old : ContextKey → Answer) (r : ContextKey) :
    putAnswer key new old (key ++ r) = new r := by
  simp [putAnswer]

theorem putAnswer_above {key q : ContextKey} (new old : ContextKey → Answer) (h : q <+: key)
    (hne : q ≠ key) : putAnswer key new old q = .directory false := by
  have hnot : ¬ key <+: q := fun h' => hne (h.eq_of_length_le h'.length_le)
  simp [putAnswer, h, hnot]

theorem putAnswer_beside {key q : ContextKey} (new old : ContextKey → Answer) (above : ¬ q <+: key)
    (below : ¬ key <+: q) : putAnswer key new old q = old q := by
  simp [putAnswer, above, below]

theorem prefix_concat {p q : ContextKey} {last : KeyFragment} :
    q <+: p ++ [last] ↔ q <+: p ∨ q = p ++ [last] := by
  rw [List.prefix_concat_iff]
  exact or_comm

/-- A directory that was put in place, with what was put into it. -/
theorem putAnswer_concat {p : ContextKey} {last : KeyFragment} {dir new old : ContextKey → Answer}
    (here : dir [] = .directory false) (there : ∀ key, dir (last :: key) = new key)
    (beside : ∀ name key, name ≠ last → dir (name :: key) = old (p ++ name :: key))
    (q : ContextKey) : putAnswer p dir old q = putAnswer (p ++ [last]) new old q := by
  by_cases hp : p <+: q
  · obtain ⟨r, rfl⟩ := hp
    rw [putAnswer_append]
    cases r with
    | nil =>
        rw [here, List.append_nil, putAnswer_above]
        · exact List.prefix_append _ _
        · simp
    | cons name key =>
        by_cases hname : name = last
        · have split : p ++ name :: key = p ++ [last] ++ key := by simp [hname]
          rw [split, putAnswer_append, hname, there]
        · rw [beside name key hname, putAnswer_beside]
          · intro h
            rw [List.prefix_append_right_inj] at h
            exact hname (List.cons_prefix_cons.mp h).1
          · intro h
            rw [List.prefix_append_right_inj] at h
            exact hname (List.cons_prefix_cons.mp h).1.symm
  · by_cases hq : q <+: p
    · rw [putAnswer_above _ _ hq, putAnswer_above _ _ (hq.trans (List.prefix_append _ _))]
      · intro h
        exact hp (h ▸ List.prefix_append _ _)
      · intro h
        exact hp (h ▸ List.prefix_refl _)
    · rw [putAnswer_beside _ _ hq hp, putAnswer_beside]
      · intro h
        rcases prefix_concat.mp h with h | h
        · exact hq h
        · exact hp (h ▸ List.prefix_append _ _)
      · exact fun h => hp ((List.prefix_append _ _).trans h)

variable {S : Type} [KeyValueStoreBackend S] {w : World S}

/-- What a directory answers after a name was set. -/
theorem treeAnswer_insert {tree : Tree} {name : KeyFragment} {a : Addr} (key : ContextKey) :
    treeAnswer w (tree.insert name a) (name :: key) = answerIn w (content w (.node a)) key :=
  treeAnswer_some w (OrdMap.get_insert_self tree name a) key

theorem treeAnswer_insert_of_ne {tree : Tree} {name other : KeyFragment} {a : Addr}
    (h : other ≠ name) (key : ContextKey) :
    treeAnswer w (tree.insert name a) (other :: key) = treeAnswer w tree (other :: key) := by
  rw [treeAnswer_cons, treeAnswer_cons, OrdMap.get_insert, if_neg (Ne.symm h)]

theorem insert_isEmpty (tree : Tree) (name : KeyFragment) (a : Addr) :
    (tree.insert name a).isEmpty = false :=
  OrdMap.isEmpty_eq_false_iff.mpr ⟨name, a, OrdMap.get_insert_self tree name a⟩

theorem Present.reads {w' : World S} {root : Tree} (present : Present w root)
    (reads : Reads w w') (within : Within w.heap root) : Present w' root := by
  intro key
  rw [reads.treeAnswer within]
  exact present key

/-- A node is put in place. -/
theorem computeNewRoot_put {root : Tree} (path : List KeyFragment) {node : Node} {entry : Entry}
    (tight : Tight w.heap) (within : Within w.heap root) (present : Present w root)
    (hentry : node.entry = some entry) (hwithin : EntryWithin w.heap entry) :
    Exec.wp (WorkingTree.computeNewRoot root path (some node))
      (fun e w' => Reads w w' ∧ EntryWithin w'.heap e ∧
        ∀ q, answerIn w' (entryContent e) q =
          putAnswer path.reverse (answerIn w (entryContent entry)) (treeAnswer w root) q)
      (fun _ => False) w := by
  induction path generalizing w node entry with
  | nil =>
      rw [WorkingTree.computeNewRoot, hentry]
      refine ⟨Reads.refl tight, hwithin, ?_⟩
      intro q
      exact (putAnswer_nil _ _ q).symm
  | cons last path ih =>
      rw [WorkingTree.computeNewRoot, Exec.wp_bind]
      refine Exec.wp_mono (findRawTree_reads tight within path.reverse) ?_ ?_
      · intro tree w₁ h
        obtain ⟨reads₁, within₁, _, below⟩ := h
        rw [Exec.wp_bind]
        show Exec.wp (if (tree.insert last w₁.heap.next).isEmpty then _ else _) _ _
          { w₁ with heap := w₁.heap.alloc node }
        rw [insert_isEmpty, if_neg Bool.false_ne_true]
        have hwithin₁ : EntryWithin w₁.heap entry := fun h => (hwithin h).mono reads₁.next
        have made : Reads w₁ { w₁ with heap := w₁.heap.alloc node } := by
          refine Reads.alloc reads₁.tight ?_
          intro tree htree
          rw [hentry] at htree
          exact hwithin₁ (Option.some.inj htree)
        have reads := reads₁.trans made
        have within₂ : Within (w₁.heap.alloc node) (tree.insert last w₁.heap.next) :=
          (within₁.mono made.next).insert (Nat.lt_succ_self _) last
        refine Exec.wp_mono (ih made.tight (within.mono reads.next) (present.reads reads within) rfl
          (fun h => by cases h; exact within₂)) ?_ fun _ h => h
        intro e w₃ h
        obtain ⟨reads₃, within₃, answers⟩ := h
        refine ⟨reads.trans reads₃, within₃, ?_⟩
        intro q
        rw [answers q, List.reverse_cons]
        have old : treeAnswer { w₁ with heap := w₁.heap.alloc node } root = treeAnswer w root :=
          funext (reads.treeAnswer within)
        rw [old]
        refine putAnswer_concat ?_ ?_ ?_ q
        · show Answer.directory _ = _
          rw [insert_isEmpty]
        · intro key
          show treeAnswer _ (tree.insert last w₁.heap.next) (last :: key) = _
          have self : ((w₁.heap.alloc node).node w₁.heap.next).entry = some entry := by
            rw [Heap.alloc_node_self, hentry]
          rw [treeAnswer_insert, content_entry _ self, made.entryAnswer hwithin₁,
            reads₁.entryAnswer hwithin]
        · intro name key hname
          show treeAnswer _ (tree.insert last w₁.heap.next) (name :: key) = _
          rw [treeAnswer_insert_of_ne hname, made.treeAnswer within₁]
          exact below name key
      · intro _ h
        obtain ⟨key, broken⟩ := h
        exact present key broken

/-- An entry that answers as a directory is one. -/
theorem entry_of_directory {entry : Entry} {empty : Bool}
    (h : answerIn w (entryContent entry) [] = .directory empty) :
    ∃ tree, entry = .tree tree ∧ tree.isEmpty = empty := by
  cases entry with
  | tree tree => exact ⟨tree, rfl, Answer.directory.inj h⟩
  | blob value => cases h
  | commit commit => cases h

/-- The answers of a changed tree. -/
structure Changed (w : World S) (answers : ContextKey → Answer) (t' : WorkingTree)
    (w' : World S) : Prop where
  reads : Reads w w'
  within : Within w'.heap t'.root
  answer : ∀ q, treeAnswer w' t'.root q = answers q

theorem Changed.find {answers : ContextKey → Answer} {t' : WorkingTree} {w' : World S}
    (h : Changed w answers t' w') (unbroken : ∀ q, answers q ≠ .broken) {q : ContextKey}
    (hq : q ≠ []) : (t'.find q w').1 = findOutcome q (answers q) := by
  have present : Present w' t'.root := by
    intro key
    rw [h.answer]
    exact unbroken key
  rw [(find_reads h.reads.tight h.within present hq).1, h.answer]

theorem putAnswer_ne_broken {key : ContextKey} {new old : ContextKey → Answer}
    (hnew : ∀ q, new q ≠ .broken) (hold : ∀ q, old q ≠ .broken) (q : ContextKey) :
    putAnswer key new old q ≠ .broken := by
  unfold putAnswer
  split
  · exact hnew _
  · split
    · exact nofun
    · exact hold q

/-- A node is put in place at a key that is not the root. -/
theorem changed_put {t : WorkingTree} {key : ContextKey} {node : Node} {entry : Entry}
    (tight : Tight w.heap) (within : Within w.heap t.root) (present : Present w t.root)
    (hkey : key ≠ []) (hentry : node.entry = some entry) (hwithin : EntryWithin w.heap entry) :
    ∃ tree w', t.computeNewRootWithChange key (some node) w = (.ok (.tree tree), w') ∧
      Changed w (putAnswer key (answerIn w (entryContent entry)) (treeAnswer w t.root))
        (.tree tree) w' := by
  have spec := computeNewRoot_put key.reverse tight within present hentry hwithin
  obtain ⟨e, w', run, reads, within', answers⟩ := Exec.wp_returns spec
  rw [List.reverse_reverse] at answers
  have root : answerIn w' (entryContent e) [] = .directory false := by
    rw [answers, putAnswer_above _ _ List.nil_prefix (Ne.symm hkey)]
  obtain ⟨tree, rfl, _⟩ := entry_of_directory root
  exact ⟨tree, w', run, reads, within' rfl, answers⟩

/-- What `add` makes. -/
theorem add_changed {t : WorkingTree} {key : ContextKey} (value : ContextValue)
    (tight : Tight w.heap) (within : Within w.heap t.root) (present : Present w t.root)
    (hkey : key ≠ []) :
    ∃ t' w', t.add key value w = (.ok t', w') ∧
      Changed w (putAnswer key (answerIn w (.value value)) (treeAnswer w t.root)) t' w' := by
  obtain ⟨tree, w', run, changed⟩ := changed_put tight within present hkey
    (show (getLeaf (.blob value)).entry = _ from rfl) nofun
  exact ⟨.tree tree, w', Exec.bind_ok run, changed⟩

/-- `add` sets one key.  What was below it goes away, what is above it becomes a directory,
and nothing else changes. -/
theorem add_law {t : WorkingTree} {key : ContextKey} (value : ContextValue)
    (tight : Tight w.heap) (within : Within w.heap t.root) (present : Present w t.root)
    (hkey : key ≠ []) :
    ∃ t' w', t.add key value w = (.ok t', w') ∧
      (t'.find key w').1 = .ok (some value) ∧
      (∀ q, ¬ q <+: key → ¬ key <+: q → (t'.find q w').1 = (t.find q w).1) ∧
      (∀ q, key <+: q → q ≠ key → (t'.find q w').1 = .ok none) ∧
      ∀ q, q ≠ [] → q <+: key → q ≠ key →
        (t'.find q w').1 = .err (.valueIsNotABlob (TezedgeIndex.keyToString q)) := by
  obtain ⟨t', w', run, changed⟩ := add_changed value tight within present hkey
  have leaf : ∀ q, answerIn w (.value value) q ≠ .broken := by
    intro q
    cases q <;> exact nofun
  have found : ∀ {q}, q ≠ [] → (t'.find q w').1 =
      findOutcome q (putAnswer key (answerIn w (.value value)) (treeAnswer w t.root) q) :=
    fun hq => changed.find (putAnswer_ne_broken leaf present) hq
  refine ⟨t', w', run, ?_, ?_, ?_, ?_⟩
  · have here := putAnswer_append key (answerIn w (.value value)) (treeAnswer w t.root) []
    rw [List.append_nil] at here
    rw [found hkey, here]
    rfl
  · intro q above below
    have hq : q ≠ [] := fun h => above (h ▸ List.nil_prefix)
    rw [found hq, putAnswer_beside _ _ above below, (find_reads tight within present hq).1]
  · intro q below hne
    obtain ⟨r, rfl⟩ := below
    have hr : r ≠ [] := fun h => hne (by rw [h, List.append_nil])
    rw [found (by simp [hkey]), putAnswer_append]
    cases r with
    | nil => exact absurd rfl hr
    | cons name r => rfl
  · intro q hq above hne
    rw [found hq, putAnswer_above _ _ above hne]
    rfl

/-! ## Deleting -/

/-- What a directory answers after a name was dropped. -/
theorem treeAnswer_remove {tree : Tree} {name : KeyFragment} (key : ContextKey) :
    treeAnswer w (tree.remove name) (name :: key) = .absent :=
  treeAnswer_none w (OrdMap.get_remove_self tree name) key

theorem treeAnswer_remove_of_ne {tree : Tree} {name other : KeyFragment} (h : other ≠ name)
    (key : ContextKey) :
    treeAnswer w (tree.remove name) (other :: key) = treeAnswer w tree (other :: key) := by
  rw [treeAnswer_cons, treeAnswer_cons, OrdMap.get_remove, if_neg (Ne.symm h)]

/-- The values that stay when nothing is put at a key. -/
theorem putAnswer_absent_iff {key q : ContextKey} {old : ContextKey → Answer} {v : ContextValue} :
    putAnswer key (fun _ => .absent) old q = .value v ↔
      ¬ key <+: q ∧ ¬ q <+: key ∧ old q = .value v := by
  by_cases below : key <+: q
  · simp [putAnswer, below]
  · by_cases above : q <+: key <;> simp [putAnswer, below, above]

/-- A directory that holds at most one name goes away with it. -/
theorem stays_concat_iff {p q : ContextKey} {last : KeyFragment} {old : ContextKey → Answer}
    {v : ContextValue} (gone : ∀ name key, name ≠ last → old (p ++ name :: key) = .absent) :
    (¬ p <+: q ∧ ¬ q <+: p ∧ old q = .value v) ↔
      ¬ p ++ [last] <+: q ∧ ¬ q <+: p ++ [last] ∧ old q = .value v := by
  constructor
  · intro h
    obtain ⟨below, above, value⟩ := h
    refine ⟨fun h => below ((List.prefix_append _ _).trans h), ?_, value⟩
    intro h
    rcases prefix_concat.mp h with h | h
    · exact above h
    · exact below (h ▸ List.prefix_append _ _)
  · intro h
    obtain ⟨below, above, value⟩ := h
    refine ⟨?_, fun h => above (h.trans (List.prefix_append _ _)), value⟩
    intro h
    obtain ⟨r, rfl⟩ := h
    cases r with
    | nil => exact above (by simp)
    | cons name key =>
        have hname : name ≠ last := by
          intro h
          exact below ⟨key, by simp [h]⟩
        rw [gone name key hname] at value
        cases value

/-- A key is deleted: the values that stay are neither below nor above it. -/
theorem computeNewRoot_remove {root : Tree} (path : List KeyFragment) (tight : Tight w.heap)
    (within : Within w.heap root) (present : Present w root) :
    Exec.wp (WorkingTree.computeNewRoot root path none)
      (fun e w' => ∃ tree, e = .tree tree ∧ Reads w w' ∧ Within w'.heap tree ∧ Present w' tree ∧
        ∀ q v, treeAnswer w' tree q = .value v ↔
          ¬ path.reverse <+: q ∧ ¬ q <+: path.reverse ∧ treeAnswer w root q = .value v)
      (fun _ => False) w := by
  induction path generalizing w with
  | nil =>
      refine ⟨.empty, rfl, Reads.refl tight, Within.empty _, ?_, ?_⟩
      · intro key
        cases key <;> simp [treeAnswer, treeContent, answerIn]
      · intro q v
        cases q <;> simp [treeAnswer, treeContent, answerIn]
  | cons last path ih =>
      rw [WorkingTree.computeNewRoot, Exec.wp_bind]
      refine Exec.wp_mono (findRawTree_reads tight within path.reverse) ?_ ?_
      · intro tree w₁ h
        obtain ⟨reads, within₁, _, below⟩ := h
        rw [Exec.wp_bind]
        show Exec.wp (if (tree.remove last).isEmpty then _ else _) _ _ w₁
        rw [List.reverse_cons]
        have present₁ := present.reads reads within
        have root₁ := within.mono reads.next
        split
        next empty =>
          refine Exec.wp_mono (ih reads.tight root₁ present₁) ?_ fun _ h => h
          intro e w₂ h
          obtain ⟨tree', rfl, reads', within', present', values⟩ := h
          refine ⟨tree', rfl, reads.trans reads', within', present', ?_⟩
          intro q v
          rw [values, reads.treeAnswer within]
          refine stays_concat_iff ?_
          intro name key hname
          have none := OrdMap.isEmpty_iff.mp empty name
          rw [OrdMap.get_remove, if_neg (Ne.symm hname)] at none
          rw [← below]
          exact treeAnswer_none w₁ none key
        next nonempty =>
          have full : (tree.remove last).isEmpty = false := Bool.eq_false_iff.mpr nonempty
          have within₂ := within₁.remove last
          have spec := computeNewRoot_put path reads.tight root₁ present₁
            (show (getNonLeaf (.tree (tree.remove last))).entry = _ from rfl)
            (fun h => by cases h; exact within₂)
          refine Exec.wp_mono spec ?_ fun _ h => h
          intro e w₂ h
          obtain ⟨reads₂, within', answers⟩ := h
          have old : treeAnswer w₁ root = treeAnswer w root := funext (reads.treeAnswer within)
          have same : ∀ q, answerIn w₂ (entryContent e) q =
              putAnswer (path.reverse ++ [last]) (fun _ => .absent) (treeAnswer w root) q := by
            intro q
            rw [answers, old]
            refine putAnswer_concat ?_ ?_ ?_ q
            · show Answer.directory _ = _
              rw [full]
            · exact treeAnswer_remove
            · intro name key hname
              exact (treeAnswer_remove_of_ne hname key).trans (below name key)
          have root₂ : answerIn w₂ (entryContent e) [] = .directory false := by
            rw [same, putAnswer_above _ _ List.nil_prefix]
            simp
          obtain ⟨tree', rfl, _⟩ := entry_of_directory root₂
          refine ⟨tree', rfl, reads.trans reads₂, within' rfl, ?_, ?_⟩
          · intro key
            have absent : ∀ _ : ContextKey, Answer.absent ≠ .broken := fun _ => by simp
            have unbroken := @putAnswer_ne_broken (path.reverse ++ [last]) _ _ absent present key
            rw [← same] at unbroken
            exact unbroken
          · intro q v
            rw [← putAnswer_absent_iff, ← same]
            rfl
      · intro _ h
        obtain ⟨key, broken⟩ := h
        exact present key broken

/-- What `delete` makes. -/
theorem delete_returns {t : WorkingTree} {key : ContextKey} (tight : Tight w.heap)
    (within : Within w.heap t.root) (present : Present w t.root) (hkey : key ≠ []) :
    ∃ t' w', t.delete key w = (.ok t', w') ∧ Reads w w' ∧ ∀ q v,
      (t'.find q w').1 = .ok (some v) ↔
        ¬ key <+: q ∧ ¬ q <+: key ∧ (t.find q w).1 = .ok (some v) := by
  have spec := computeNewRoot_remove key.reverse tight within present
  obtain ⟨e, w', run, tree, rfl, reads, within', present', values⟩ := Exec.wp_returns spec
  rw [List.reverse_reverse] at values
  have found : ∀ {w : World S} (t : WorkingTree) {q : ContextKey} {v : ContextValue},
      Tight w.heap → Within w.heap t.root → Present w t.root → q ≠ [] →
      ((t.find q w).1 = .ok (some v) ↔ treeAnswer w t.root q = .value v) := by
    intro w t q v tight within present hq
    rw [(find_reads tight within present hq).1]
    cases treeAnswer w t.root q <;> simp [findOutcome]
  refine ⟨.tree tree, w', ?_, reads, ?_⟩
  · rw [WorkingTree.delete, if_neg hkey, WorkingTree.computeNewRootWithChange]
    exact Exec.bind_ok run
  · intro q v
    by_cases hq : q = []
    · subst hq
      constructor
      · intro h
        cases h
      · intro h
        exact absurd List.nil_prefix h.2.1
    · rw [found (.tree tree) reads.tight within' present' hq, found t tight within present hq]
      exact values q v

/-- `delete` drops the values at and below a key and keeps all others, if and only if there
is no value above the key. -/
theorem delete_law_iff {t : WorkingTree} {key : ContextKey} (tight : Tight w.heap)
    (within : Within w.heap t.root) (present : Present w t.root) (hkey : key ≠ []) :
    (∃ t' w', t.delete key w = (.ok t', w') ∧
      (∀ q v, key <+: q → (t'.find q w').1 ≠ .ok (some v)) ∧
      ∀ q v, ¬ key <+: q → ((t'.find q w').1 = .ok (some v) ↔ (t.find q w).1 = .ok (some v))) ↔
    ∀ p v, p <+: key → p ≠ key → (t.find p w).1 ≠ .ok (some v) := by
  obtain ⟨t', w', run, reads, values⟩ := delete_returns tight within present hkey
  constructor
  · intro h p v above hne value
    obtain ⟨t'', w'', run', below, beside⟩ := h
    rw [run] at run'
    cases run'
    have hp : ¬ key <+: p := fun h => hne (above.eq_of_length_le h.length_le)
    exact ((values p v).mp ((beside p v hp).mpr value)).2.1 above
  · intro none
    refine ⟨t', w', run, ?_, ?_⟩
    · intro q v below value
      exact ((values q v).mp value).1 below
    · intro q v below
      rw [values]
      constructor
      · exact fun h => h.2.2
      · intro value
        refine ⟨below, ?_, value⟩
        intro above
        exact none q v above (fun h => below (h ▸ List.prefix_refl _)) value

section Sample

local instance lawsDigest : Digest := sampleDigest

/-- A process whose only node holds a value. -/
def oneValue : World System := ⟨Heap.empty.alloc (getLeaf (.blob [1])), .new false []⟩

/-- The tree with this value. -/
def oneValueTree : WorkingTree := .tree (OrdMap.empty.insert "a" 0)

theorem tight_oneValue : Tight oneValue.heap := by
  intro a tree ha hentry
  have hzero : a = 0 := Nat.lt_one_iff.mp ha
  subst hzero
  cases hentry

theorem within_oneValueTree : Within oneValue.heap oneValueTree.root :=
  (Within.empty _).insert Nat.zero_lt_one "a"

theorem present_oneValueTree : Present oneValue oneValueTree.root := by
  intro key
  cases key with
  | nil => exact nofun
  | cons name key =>
      show treeAnswer oneValue (OrdMap.empty.insert "a" 0) (name :: key) ≠ _
      by_cases hname : name = "a"
      · rw [hname, treeAnswer_insert]
        cases key <;> exact nofun
      · rw [treeAnswer_insert_of_ne hname]
        exact nofun

theorem add_law_oneValue :
    ∃ t' w', oneValueTree.add ["a", "b"] [2] oneValue = (.ok t', w') ∧
      (t'.find ["a", "b"] w').1 = .ok (some [2]) ∧
      (t'.find ["a"] w').1 = .err (.valueIsNotABlob "a") := by
  obtain ⟨t', w', run, here, _, _, above⟩ := add_law [2] tight_oneValue within_oneValueTree
    present_oneValueTree (List.cons_ne_nil "a" ["b"])
  exact ⟨t', w', run, here, above ["a"] (by simp) ⟨["b"], rfl⟩ (by simp)⟩

/-- A process with the nodes of a directory of two values, and of another value. -/
def twoLevels : World System :=
  ⟨Heap.empty.allocAll [getLeaf (.blob [1]), getLeaf (.blob [2]),
    getNonLeaf (.tree ((OrdMap.empty.insert "b" 0).insert "c" 1)), getLeaf (.blob [3])],
    .new false []⟩

/-- The tree with this directory and the value beside it. -/
def twoLevelTree : WorkingTree := .tree ((OrdMap.empty.insert "a" 2).insert "d" 3)

theorem tight_twoLevels : Tight twoLevels.heap := by
  have inside : ∀ a < 4, ∀ entry ∈ (twoLevels.heap.node a).entry,
      entry.Inside (List.range 4) := by
    decide +kernel
  intro a tree ha hentry p hp
  exact List.mem_range.mp (inside a ha _ hentry p hp)

theorem within_twoLevelTree : Within twoLevels.heap twoLevelTree.root :=
  ((Within.empty _).insert (by decide) "a").insert (by decide) "d"

theorem present_twoLevelTree : Present twoLevels twoLevelTree.root :=
  present_of_inside (l := List.range 4) (by decide +kernel) (by decide +kernel)

/-- The value that is deleted has one beside it, and one beside its directory. -/
theorem delete_law_iff_twoLevels :
    ∃ t' w', twoLevelTree.delete ["a", "b"] twoLevels = (.ok t', w') ∧
      (∀ q v, ["a", "b"] <+: q → (t'.find q w').1 ≠ .ok (some v)) ∧
      (t'.find ["a", "c"] w').1 = .ok (some [2]) ∧ (t'.find ["d"] w').1 = .ok (some [3]) := by
  have directories : ∀ p ∈ [[], ["a"]], (twoLevelTree.find p twoLevels).1.isOk = false := by
    decide +kernel
  have above : ∀ p v, p <+: ["a", "b"] → p ≠ ["a", "b"] →
      (twoLevelTree.find p twoLevels).1 ≠ .ok (some v) := by
    intro p v hprefix hne found
    have mem : p ∈ [[], ["a"]] := by
      have all := (List.mem_inits p ["a", "b"]).mpr hprefix
      simp only [List.inits, List.map, List.mem_cons, List.not_mem_nil, or_false] at all ⊢
      rcases all with rfl | rfl | rfl
      · exact .inl rfl
      · exact .inr rfl
      · exact absurd rfl hne
    have failed := directories p mem
    rw [found] at failed
    cases failed
  obtain ⟨t', w', run, gone, beside⟩ := (delete_law_iff tight_twoLevels within_twoLevelTree
    present_twoLevelTree (List.cons_ne_nil "a" ["b"])).mpr above
  exact ⟨t', w', run, gone, (beside ["a", "c"] [2] (by simp)).mpr (by decide +kernel),
    (beside ["d"] [3] (by simp)).mpr (by decide +kernel)⟩

/-- A key below a value is deleted, and the value goes away. -/
theorem delete_below_value_drops :
    (Tight oneValue.heap ∧ Within oneValue.heap oneValueTree.root ∧
      Present oneValue oneValueTree.root) ∧
    ¬ ∃ t' w', oneValueTree.delete ["a", "b"] oneValue = (.ok t', w') ∧
      (∀ q v, ["a", "b"] <+: q → (t'.find q w').1 ≠ .ok (some v)) ∧
      ∀ q v, ¬ ["a", "b"] <+: q →
        ((t'.find q w').1 = .ok (some v) ↔ (oneValueTree.find q oneValue).1 = .ok (some v)) := by
  refine ⟨⟨tight_oneValue, within_oneValueTree, present_oneValueTree⟩, ?_⟩
  intro h
  obtain ⟨t', w', run, _, beside⟩ := h
  have before : (oneValueTree.find ["a"] oneValue).1 = .ok (some [1]) := by decide +kernel
  have kept := (beside ["a"] [1] (by decide)).mpr before
  have gone : ((oneValueTree.delete ["a", "b"] >>= fun t' => t'.find ["a"]) oneValue).1 =
      .ok none := by
    decide +kernel
  rw [Exec.bind_ok run] at gone
  cases kept.symm.trans gone

end Sample

end NodeFuzzer
