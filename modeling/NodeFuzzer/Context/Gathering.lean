import NodeFuzzer.Context.Numbering

/-!
# What a commit takes over

A commit meets the nodes of its tree: it goes on below those that are not marked, whose entries
it writes, and takes over those that are (`Meets`).  What it writes refers to what it writes
and to what it takes over, which it tells the thread (`Gathered`).
-/

namespace NodeFuzzer

/-! ## Calls that hash -/

theorem Marks.tidy {S : Type} {w w' : World S} (marks : Marks w w') (tidy : Tidy w.heap) :
    Tidy w'.heap := by
  constructor
  · intro a
    constructor
    · intro hsome hentry
      rw [marks.entryHash] at hsome
      rw [marks.entry] at hentry
      exact marks.kept a ((tidy.nodes a).stored hsome hentry)
    · intro commit unmarked
      rw [marks.entry]
      exact (tidy.nodes a).plain commit (marks.notCommited unmarked)
  · intro a out
    rw [marks.next] at out
    rw [marks.entryHash, marks.entry]
    exact tidy.beyond a out

theorem onto_of_marks {w w' : World System} (marks : Marks w w') : Onto w w' := by
  intro tidy placed
  refine ⟨marks.tidy tidy, marks.next.ge, fun a _ => marks.kept a, [], ?_⟩
  rw [marks.repo]
  exact .refl placed

section Calls

variable [Digest]

theorem steps_entryHash (fuel : Nat) (a : Addr) :
    Exec.Steps Hashes (entryHash fuel a : Call System HashingError EntryHash) :=
  (steps_entryHashId fuel a).bind fun id => steps_getHashOr _ id

theorem steps_nodeHashId (a : Addr) :
    Exec.Steps Onto (nodeHashId a : Call System MerkleError HashId) :=
  (Exec.steps_gets _).bind fun depth =>
    ((steps_entryHashId depth a).mono fun _ _ => onto_of_hashes).mapErr

theorem steps_addOlderEntry (store : Bool) (a : Addr) :
    Exec.Steps Onto (addOlderEntry store a : Call System MerkleError SerializingData) := by
  cases store with
  | false => exact Exec.steps_pure _
  | true => exact (steps_nodeHashId a).bind fun _ => Exec.steps_pure _

omit [Digest] in
theorem steps_addSerializedEntry (store : Bool) (id : HashId) (entry : Entry) :
    Exec.Steps Onto (addSerializedEntry store id entry :
      Call System MerkleError SerializingData) := by
  have serialized : Exec.Steps Onto (serializeEntry entry : Call System MerkleError Serialized) := by
    cases entry with
    | tree tree =>
        exact (Exec.steps_gets _).bind fun _ =>
          (Exec.steps_orFail _ _).bind fun _ => Exec.steps_pure _
    | blob value => exact Exec.steps_pure _
    | commit commit => exact Exec.steps_pure _
  cases store with
  | false => exact Exec.steps_pure _
  | true => exact serialized.bind fun _ => Exec.steps_pure _

theorem steps_getEntriesRecursively (store : Bool) (fuel : Nat) (entry : Entry) (id : HashId)
    (root : Option Tree) : Exec.Steps Onto (getEntriesRecursively store fuel entry id root :
      Call System MerkleError SerializingData) := by
  induction fuel generalizing entry id root with
  | zero => exact Exec.steps_abort
  | succ fuel ih =>
      rw [getEntriesRecursively]
      refine (steps_addSerializedEntry store id entry).bind fun data => ?_
      cases entry with
      | blob value => exact Exec.steps_pure _
      | tree tree =>
          refine (Exec.Steps.mapEach fun p _ => ?_).bind fun _ => Exec.steps_pure _
          refine (Exec.steps_gets _).bind fun node => ?_
          split
          · exact steps_addOlderEntry store p.2
          · have mark : Exec.Steps Onto (Call.updateNode p.2 fun node =>
                { node with commited := true } : Call System MerkleError Unit) :=
              fun w => onto_of_marks (Marks.one w p.2)
            refine mark.bind fun _ => ?_
            cases node.entry with
            | none => exact Exec.steps_pure _
            | some entry => exact (steps_nodeHashId p.2).bind fun id => ih entry id none
      | commit commit =>
          have go : ∀ entry : Entry, Exec.Steps Onto (do
              let below ← getEntriesRecursively store fuel entry commit.rootHash none
              pure (data ++ below) : Call System MerkleError SerializingData) :=
            fun entry => (ih entry _ none).bind fun _ => Exec.steps_pure _
          cases root with
          | none => exact (steps_getEntry _).bind go
          | some root => exact (Exec.steps_pure _).bind go

theorem hands_getWorkingTreeRootHash (self : WorkingTree) :
    Hands (self.getWorkingTreeRootHash : Call System MerkleError HashId) :=
  Hands.bind (Exec.steps_gets _) fun depth =>
    (hands_hashTree (steps_entryHash depth) self.root).mapErr

theorem steps_prepareCommit (self : WorkingTree) (time : UInt64) (author message : String)
    (parent : Option HashId) (store : Bool) :
    Exec.Steps Onto (self.prepareCommit time author message parent store :
      Call System MerkleError (HashId × SerializingData)) := by
  refine ((hands_getWorkingTreeRootHash self).steps.mono fun _ _ => onto_of_hashes).bind fun rootHash => ?_
  have commit := (hands_hashCommit ⟨parent, rootHash, time, author, message⟩).steps.mono
    fun _ _ => onto_of_hashes
  refine commit.mapErr.bind fun id => ?_
  refine (Exec.steps_gets _).bind fun depth => ?_
  exact (steps_getEntriesRecursively store _ _ id _).bind fun _ => Exec.steps_pure _

theorem steps_getCommitHash (id : HashId) : Exec.Steps Onto
    (TezedgeContext.getCommitHash id : Call System ContextError ContextHash) :=
  (Exec.steps_query _).mapErr.bind fun hash => Exec.steps_orFail _ hash

theorem steps_clearEntries : Exec.Steps Onto
    (TezedgeContext.onStore KeyValueStoreBackend.clearEntries : Call System ContextError Unit) :=
  fun w => Std.Refl.refl (r := Onto) w

theorem steps_hash (c : TezedgeContext) (author message : String) (date : Int64) :
    Exec.Steps Onto (c.hash author message date : Call System ContextError ContextHash) := by
  refine (Exec.steps_orFail _ _).bind fun time => ?_
  refine (steps_prepareCommit _ _ _ _ _ _).mapErr.bind fun r => ?_
  refine (steps_getCommitHash r.1).bind fun h => ?_
  exact steps_clearEntries.bind fun _ => Exec.steps_pure h

theorem steps_getMerkleRoot (c : TezedgeContext) : Exec.Steps Onto
    (c.getMerkleRoot : Call System ContextError EntryHash) := by
  refine Exec.Steps.mapErr ?_
  refine ((hands_getWorkingTreeRootHash c.tree).steps.mono fun _ _ => onto_of_hashes).bind fun id => ?_
  exact (Exec.steps_query _).mapErr.bind fun hash => Exec.steps_orFail _ hash

end Calls

/-! ## Nodes that are met -/

/-- The nodes that a commit comes to: it goes on below those that are not marked. -/
inductive Meets (heap : Heap) (entry : Entry) : Addr → Prop
  | child {a : Addr} (mem : a ∈ entry.children) : Meets heap entry a
  | under {a b : Addr} {entry' : Entry} (meets : Meets heap entry a)
      (unmarked : (heap.node a).commited = false) (here : (heap.node a).entry = some entry')
      (mem : b ∈ entry'.children) : Meets heap entry b

namespace Meets

variable {heap heap' : Heap} {entry entry' : Entry} {a b : Addr}

theorem mono (h : Meets heap' entry a)
    (unmarked : ∀ b, (heap'.node b).commited = false → (heap.node b).commited = false)
    (same : ∀ b, (heap'.node b).entry = (heap.node b).entry) : Meets heap entry a := by
  induction h with
  | child mem => exact .child mem
  | under _ fresh here mem ih => exact .under ih (unmarked _ fresh) ((same _).symm.trans here) mem

theorem trans (h : Meets heap entry a) (unmarked : (heap.node a).commited = false)
    (here : (heap.node a).entry = some entry') (h' : Meets heap entry' b) :
    Meets heap entry b := by
  induction h' with
  | child mem => exact .under h unmarked here mem
  | under _ fresh here mem ih => exact .under ih fresh here mem

end Meets

section Walking

variable {S : Type} {w w' : World S}

theorem Marks.meets (marks : Marks w w') {entry : Entry} {a : Addr}
    (h : Meets w'.heap entry a) : Meets w.heap entry a :=
  h.mono (fun _ => marks.notCommited) marks.entry

/-- What is marked once a node and what is below it were walked: what was marked before, the node,
or what is met below it. -/
theorem Meets.walked {w w₁ w₂ w₃ : World S} {entry entry' : Entry} {b : Addr} (marks : Marks w w₁)
    (child : Meets w.heap entry b) (unmarked : (w₁.heap.node b).commited = false)
    (here : (w₁.heap.node b).entry = some entry')
    (marked : w₂ = { w₁ with heap := w₁.heap.set b { w₁.heap.node b with commited := true } })
    (before : ∀ a, (w.heap.node a).commited = false → (w₁.heap.node a).commited = true →
      Meets w.heap entry a)
    (below : ∀ a, (w₂.heap.node a).commited = false → (w₃.heap.node a).commited = true →
      Meets w₂.heap entry' a) {a : Addr} (old : (w.heap.node a).commited = false)
    (new : (w₃.heap.node a).commited = true) : Meets w.heap entry a := by
  have one : Marks w₁ w₂ := marked ▸ Marks.one w₁ b
  cases mid : (w₁.heap.node a).commited with
  | true => exact before a old mid
  | false =>
      by_cases same : a = b
      · rw [same]
        exact child
      · have unmarked₂ : (w₂.heap.node a).commited = false := by
          rw [marked, Heap.set_node_of_ne same]
          exact mid
        exact child.trans (marks.notCommited unmarked) ((marks.entry b).symm.trans here)
          (marks.meets (one.meets (below a unmarked₂ new)))

/-- A directory is written when its nodes have ids. -/
theorem addSerializedEntry_true {entry : Entry} (plain : ∀ commit, entry ≠ .commit commit)
    (id : HashId) : Exec.wp (addSerializedEntry true id entry : Call S MerkleError SerializingData)
      (fun data w' => w' = w ∧ (∃ value, Serializes w.heap entry value ∧ data = ⟨[(id, value)], []⟩) ∧
        ∀ b ∈ entry.children, (w.heap.node b).entryHash ≠ none) (fun w' => w' = w) w := by
  rw [addSerializedEntry, if_pos rfl, Exec.wp_bind]
  cases entry with
  | commit commit => exact absurd rfl (plain commit)
  | blob value => exact ⟨rfl, ⟨_, .blob value, rfl⟩, fun _ h => absurd h List.not_mem_nil⟩
  | tree tree =>
      rw [serializeEntry, Exec.wp_bind, Exec.wp_gets, Exec.wp_bind]
      refine Exec.wp_orFail _ _ ?_ fun _ => rfl
      intro entries hentries
      refine ⟨rfl, ⟨_, .tree hentries, rfl⟩, ?_⟩
      intro b mem
      obtain ⟨p, hp, rfl⟩ := List.mem_map.mp mem
      exact hasIds_of_serializeTree hentries p hp

variable [KeyValueStoreBackend S] [Digest]

/-- As far as `get_entries_recursively` returns, it has collected what it came to. -/
theorem getEntriesRecursively_walk (fuel : Nat) {entry : Entry} (tidy : Tidy w.heap)
    (plain : ∀ commit, entry ≠ .commit commit) (id : HashId) :
    Exec.wp (getEntriesRecursively true fuel entry id none)
      (fun data w' => Entered true w w' id entry data ∧
        ∀ a, (w.heap.node a).commited = false → (w'.heap.node a).commited = true →
          Meets w.heap entry a) (fun _ => True) w := by
  induction fuel generalizing w entry id with
  | zero => exact trivial
  | succ fuel ih =>
      rw [getEntriesRecursively, Exec.wp_bind]
      refine Exec.wp_mono (addSerializedEntry_true plain id) ?_ fun _ _ => trivial
      rintro data w₀ ⟨rfl, ⟨value, serializes, rfl⟩, ids⟩
      cases entry with
      | commit commit => exact absurd rfl (plain commit)
      | blob blob =>
          refine ⟨⟨value, .none, serializes, Walk.refl true _, ⟨?_, ?_⟩, rfl⟩, ?_⟩
          · exact fun b hb => absurd hb List.not_mem_nil
          · exact fun _ b hb => absurd hb List.not_mem_nil
          · intro a unmarked marked
            rw [unmarked] at marked
            cases marked
      | tree tree =>
          rw [Exec.wp_bind]
          refine Exec.wp_mono (Exec.wp_mapEach (I := fun done ds w₂ =>
            (Walk true w₀ w₂ (.concat ds) ∧
              Visited true w₀ w₂ (.concat ds) (done.map Prod.snd)) ∧
            ∀ a, (w₀.heap.node a).commited = false → (w₂.heap.node a).commited = true →
              Meets w₀.heap (.tree tree) a) ?_ ?_) ?_ fun _ h => h
          · refine ⟨⟨Walk.refl true _, ⟨?_, ?_⟩⟩, ?_⟩
            · exact fun b hb => absurd hb List.not_mem_nil
            · exact fun _ b hb => absurd hb List.not_mem_nil
            · intro a unmarked marked
              rw [unmarked] at marked
              cases marked
          · rintro done p ds w₂ hp ⟨⟨walk, visited⟩, met⟩
            have child : Meets w₀.heap (.tree tree) p.2 :=
              .child (List.mem_map.mpr ⟨p, hp, rfl⟩)
            obtain ⟨j, hj⟩ := Option.ne_none_iff_exists'.mp
              (ids p.2 (List.mem_map.mpr ⟨p, hp, rfl⟩))
            have tidy₂ := walk.marks.tidy tidy
            have hj₂ : (w₂.heap.node p.2).entryHash = some j := (walk.marks.entryHash _).trans hj
            have hsome : (w₂.heap.node p.2).entryHash ≠ none := by
              rw [hj₂]
              exact Option.some_ne_none j
            have lt₂ := tidy₂.lt hsome
            rw [Exec.wp_bind, Call.readNode, Exec.wp_gets]
            cases hcommited : (w₂.heap.node p.2).commited with
            | true =>
                rw [if_pos rfl, addOlderEntry, if_pos rfl, Exec.wp_bind]
                refine wp_nodeHashId lt₂ hj₂ ⟨?_, met⟩
                exact walk.visit visited hj (Walk.note lt₂ hcommited hj₂) hcommited
                  fun _ _ => List.mem_singleton_self j
            | false =>
                rw [if_neg Bool.false_ne_true, Exec.wp_bind, Call.updateNode, Exec.wp_modify]
                obtain ⟨w₃, hw₃⟩ : ∃ w₃ : World S, w₃ = { w₂ with
                    heap := w₂.heap.set p.2 { w₂.heap.node p.2 with commited := true } } := ⟨_, rfl⟩
                rw [← hw₃]
                have one : Marks w₂ w₃ := hw₃ ▸ Marks.one w₂ p.2
                cases hentry : (w₂.heap.node p.2).entry with
                | none =>
                    have marked := (tidy₂.nodes p.2).stored hsome hentry
                    rw [hcommited] at marked
                    cases marked
                | some entry =>
                    have plain₂ : ∀ commit, entry ≠ .commit commit := by
                      rintro commit rfl
                      exact (tidy₂.nodes p.2).plain commit hcommited hentry
                    show Exec.wp (nodeHashId p.2 >>= _) _ _ w₃
                    rw [Exec.wp_bind]
                    refine wp_nodeHashId (by rw [one.next]; exact lt₂)
                      ((one.entryHash _).trans hj₂) ?_
                    refine Exec.wp_mono (ih (one.tidy tidy₂) plain₂ j) ?_ fun _ h => h
                    rintro d w₄ ⟨entered, met₄⟩
                    have walk₄ := Walk.node lt₂ hcommited hj₂ hentry hw₃ entered
                    refine ⟨walk.visit visited hj walk₄ ?_ ?_, ?_⟩
                    · obtain ⟨_, _, _, below, _, _⟩ := entered.parts
                      refine below.marks.kept p.2 ?_
                      rw [hw₃, Heap.set_node_self]
                    · intro _ hold
                      rw [walk.marks.kept p.2 hold] at hcommited
                      cases hcommited
                    · exact fun a => Meets.walked walk.marks child hcommited hentry hw₃ met met₄
          · rintro ds w₂ ⟨⟨walk, visited⟩, met⟩
            exact ⟨⟨value, .concat ds, serializes, walk, visited, rfl⟩, met⟩

end Walking

/-! ## What a commit writes -/

theorem Numbers.meets {w w' : World System} {ids : List HashId} (numbers : Numbers w ids w')
    {entry : Entry} {a : Addr} : Meets w'.heap entry a ↔ Meets w.heap entry a := by
  constructor
  · intro h
    exact h.mono (fun b unmarked => (numbers.commited b).symm.trans unmarked) numbers.entry
  · intro h
    exact h.mono (fun b unmarked => (numbers.commited b).trans unmarked)
      fun b => (numbers.entry b).symm

/-- A node that a commit of the tree writes. -/
def Writes (w : World System) (root : Tree) (a : Addr) : Prop :=
  Meets w.heap (.tree root) a ∧ (w.heap.node a).commited = false

/-- A node that a commit of the tree takes over, with its id. -/
def TakesOver (w : World System) (root : Tree) (id : HashId) : Prop :=
  ∃ a, Meets w.heap (.tree root) a ∧ (w.heap.node a).commited = true ∧
    (w.heap.node a).entryHash = some id

/-- What a commit writes refers to what it writes, and to what it takes over and tells the
thread. -/
structure Gathered (w : World System) (root : Tree) (ids : List HashId) (id : HashId)
    (data : SerializingData) : Prop where
  commit : ∃ value, (id, value) ∈ data.batch
  keys : ∀ p ∈ data.batch, p.1 ∈ ids ∨ ∃ a, Writes w root a ∧ (w.heap.node a).entryHash = some p.1
  references : ∀ p ∈ data.batch, ∀ r ∈ p.2.references,
    (∃ value, (r, value) ∈ data.batch) ∨ TakesOver w root r
  older : ∀ r, TakesOver w root r → r ∈ data.referencedOlderEntries

section Gathers

variable {w w₁ w' : World System} {root : Tree} {ids : List HashId} {data : SerializingData}

/-- The nodes that are met were collected, or are among the older ones. -/
theorem Visited.of_meets {entry : Entry}
    (walk : Walk true w w' data) (visited : Visited true w w' data entry.children) {a : Addr}
    (meets : Meets w.heap entry a) : (w'.heap.node a).commited = true ∧
      ((w.heap.node a).commited = true →
        ∃ id, (w.heap.node a).entryHash = some id ∧ id ∈ data.referencedOlderEntries) := by
  induction meets with
  | child mem => exact ⟨visited.marked _ mem, visited.older rfl _ mem⟩
  | under _ unmarked here mem ih =>
      obtain ⟨_, _, entry', _, _, hentry, _, _, visited'⟩ := walk.collected _ unmarked ih.1
      rw [here] at hentry
      cases hentry
      exact ⟨visited'.marked _ mem, visited'.older rfl _ mem⟩

/-- The id of a node that is met is one that is written or taken over. -/
theorem Visited.covers (numbers : Numbers w ids w₁)
    (numbered : ∀ a, Meets w.heap (.tree root) a → (w.heap.node a).commited = true →
      (w.heap.node a).entryHash ≠ none) (walk : Walk true w₁ w' data)
    (visited : Visited true w₁ w' data (Entry.tree root).children) {a : Addr}
    (meets : Meets w₁.heap (.tree root) a) {r : HashId}
    (hr : (w₁.heap.node a).entryHash = some r) :
    (∃ value, (r, value) ∈ data.batch) ∨ TakesOver w root r := by
  have meets' := numbers.meets.mp meets
  cases hcommited : (w₁.heap.node a).commited with
  | true =>
      have hcommited' := (numbers.commited a).symm.trans hcommited
      obtain ⟨j, hj⟩ := Option.ne_none_iff_exists'.mp (numbered a meets' hcommited')
      have same := numbers.kept hj
      rw [hr] at same
      cases same
      exact Or.inr ⟨a, meets', hcommited', hj⟩
  | false =>
      obtain ⟨_, j, _, value, hj, _, _, written, _⟩ :=
        walk.collected a hcommited (visited.of_meets walk meets).1
      rw [hr] at hj
      cases hj
      exact Or.inl ⟨value, written rfl⟩

theorem gathered (numbers : Numbers w ids w₁)
    (numbered : ∀ a, Meets w.heap (.tree root) a → (w.heap.node a).commited = true →
      (w.heap.node a).entryHash ≠ none) {id : HashId} {commit : Commit} (hid : id ∈ ids)
    (hroot : commit.rootHash ∈ ids)
    (entered : Entered true w₁ w' commit.rootHash (.tree root) data)
    (met : ∀ a, (w₁.heap.node a).commited = false → (w'.heap.node a).commited = true →
      Meets w₁.heap (.tree root) a) :
    Gathered w root ids id (⟨[(id, .commit commit)], []⟩ ++ data) := by
  obtain ⟨value, rest, serializes, walk, visited, rfl⟩ := entered.parts
  -- The commit comes first, then its root, then what was collected.
  have first : (id, Serialized.commit commit) ∈ (⟨[(id, .commit commit)], []⟩ ++
      (⟨[(commit.rootHash, value)], []⟩ ++ rest) : SerializingData).batch := List.mem_cons_self
  have second : (commit.rootHash, value) ∈ (⟨[(id, .commit commit)], []⟩ ++
      (⟨[(commit.rootHash, value)], []⟩ ++ rest) : SerializingData).batch :=
    List.mem_cons_of_mem _ List.mem_cons_self
  have others : ∀ {p}, p ∈ rest.batch → p ∈ (⟨[(id, .commit commit)], []⟩ ++
      (⟨[(commit.rootHash, value)], []⟩ ++ rest) : SerializingData).batch :=
    fun mem => List.mem_cons_of_mem _ (List.mem_cons_of_mem _ mem)
  have split : ∀ p ∈ (⟨[(id, .commit commit)], []⟩ ++
      (⟨[(commit.rootHash, value)], []⟩ ++ rest) : SerializingData).batch,
      p = (id, .commit commit) ∨ p = (commit.rootHash, value) ∨ p ∈ rest.batch := by
    intro p mem
    rcases List.mem_cons.mp mem with rfl | mem
    · exact Or.inl rfl
    · exact Or.inr (List.mem_cons.mp mem)
  have covers : ∀ {a r}, Meets w₁.heap (.tree root) a → (w₁.heap.node a).entryHash = some r →
      (∃ value', (r, value') ∈ (⟨[(id, .commit commit)], []⟩ ++
        (⟨[(commit.rootHash, value)], []⟩ ++ rest) : SerializingData).batch) ∨
        TakesOver w root r := by
    intro a r meets hr
    refine (visited.covers numbers numbered walk meets hr).imp_left ?_
    rintro ⟨value', mem⟩
    exact ⟨value', others mem⟩
  refine ⟨⟨_, first⟩, ?_, ?_, ?_⟩
  · intro p mem
    rcases split p mem with rfl | rfl | mem
    · exact Or.inl hid
    · exact Or.inl hroot
    · obtain ⟨a, _, unmarked, marked, hp, _, _⟩ := walk.batch p mem
      refine (numbers.new hp).symm.imp (fun given => given.1) fun here => ?_
      exact ⟨a, ⟨numbers.meets.mp (met a unmarked marked),
        (numbers.commited a).symm.trans unmarked⟩, here⟩
  · intro p mem r hr
    rcases split p mem with rfl | rfl | mem
    · rw [List.mem_singleton.mp hr]
      exact Or.inl ⟨value, second⟩
    · obtain ⟨b, child, hb⟩ := serializes.references hr
      exact covers (.child child) hb
    · obtain ⟨a, entry, unmarked, marked, _, here, serializes'⟩ := walk.batch p mem
      obtain ⟨b, child, hb⟩ := serializes'.references hr
      exact covers (.under (met a unmarked marked) unmarked here child) hb
  · rintro r ⟨a, meets, marked, hr⟩
    obtain ⟨_, older⟩ := visited.of_meets walk (numbers.meets.mpr meets)
    obtain ⟨j, hj, mem⟩ := older ((numbers.commited a).trans marked)
    rw [numbers.kept hr] at hj
    cases hj
    exact mem

variable [Digest]

/-- `prepare_commit`, as far as it returns. -/
theorem prepareCommit_gathers (self : WorkingTree) (time : UInt64) (author message : String)
    (parent : Option HashId) (tidy : Tidy w.heap) (placed : System.Placed w.repo)
    (numbered : ∀ a, Meets w.heap (.tree self.root) a → (w.heap.node a).commited = true →
      (w.heap.node a).entryHash ≠ none) :
    Exec.wp (self.prepareCommit time author message parent true)
      (fun r w' => ∃ ids, System.Handing w.repo ids w'.repo ∧ r.1 ∈ ids ∧
        Gathered w self.root ids r.1 r.2) (fun _ => True) w := by
  rw [WorkingTree.prepareCommit, Exec.wp_bind]
  refine Exec.wp_mono (hands_getWorkingTreeRootHash self w placed) ?_ fun _ _ => trivial
  rintro rootHash w₁ ⟨ids₁, hroot, numbers₁⟩
  rw [Exec.wp_bind]
  refine Exec.wp_mono ((hands_hashCommit ⟨parent, rootHash, time, author, message⟩).mapErr w₁
    numbers₁.handing.placed) ?_ fun _ _ => trivial
  rintro id w₂ ⟨ids₂, hid, numbers₂⟩
  have numbers := numbers₁.trans numbers₂
  have tidy₂ := (numbers.went tidy).tidy
  rw [Exec.wp_bind, Exec.wp_gets, Exec.wp_bind, getEntriesRecursively, Exec.wp_bind]
  have head : Exec.wp (addSerializedEntry true id
      (.commit ⟨parent, rootHash, time, author, message⟩) : Call System MerkleError SerializingData)
      (fun data w' => w' = w₂ ∧
        data = ⟨[(id, .commit ⟨parent, rootHash, time, author, message⟩)], []⟩)
      (fun _ => False) w₂ := ⟨rfl, rfl⟩
  refine Exec.wp_mono head ?_ fun _ h => h.elim
  rintro data w₀ ⟨rfl, rfl⟩
  show Exec.wp (getEntriesRecursively true (w₀.heap.next + 1) (.tree self.root) rootHash none
    >>= _) _ _ w₀
  rw [Exec.wp_bind]
  refine Exec.wp_mono (getEntriesRecursively_walk _ tidy₂ (fun _ h => by cases h) rootHash) ?_
    fun _ _ => trivial
  rintro below w₃ ⟨entered, met⟩
  refine ⟨ids₂ ++ ids₁, ?_, List.mem_append_left _ hid, ?_⟩
  · obtain ⟨_, _, _, walk, _, _⟩ := entered.parts
    rw [walk.marks.repo]
    exact numbers.handing
  · exact gathered numbers numbered (List.mem_append_left _ hid) (List.mem_append_right _ hroot)
      entered met

end Gathers

end NodeFuzzer
