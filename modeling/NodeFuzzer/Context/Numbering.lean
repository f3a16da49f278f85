import NodeFuzzer.Context.Tidy

/-!
# Numbering nodes

Hashing an entry numbers the nodes below it that have no id.  All ids come from the store
(`Numbers`), and the one that is returned is among them (`Hands`).
-/

namespace NodeFuzzer

/-- Nodes were numbered with ids that were handed out. -/
structure Numbers (w : World System) (ids : List HashId) (w' : World System) : Prop where
  handing : System.Handing w.repo ids w'.repo
  next : w'.heap.next = w.heap.next
  node : ∀ a, w'.heap.node a = { w.heap.node a with entryHash := (w'.heap.node a).entryHash }
  kept : ∀ {a id}, (w.heap.node a).entryHash = some id → (w'.heap.node a).entryHash = some id
  new : ∀ {a id}, (w'.heap.node a).entryHash = some id →
    (w.heap.node a).entryHash = some id ∨ id ∈ ids ∧ (w.heap.node a).entry ≠ none

/-- Nodes were numbered. -/
def Hashes (w w' : World System) : Prop := System.Placed w.repo → ∃ ids, Numbers w ids w'

namespace Numbers

variable {w w' w'' : World System} {ids ids' : List HashId}

theorem refl (placed : System.Placed w.repo) : Numbers w [] w :=
  ⟨.refl placed, rfl, fun _ => rfl, fun h => h, Or.inl⟩

theorem entry (h : Numbers w ids w') (a : Addr) :
    (w'.heap.node a).entry = (w.heap.node a).entry := by rw [h.node a]

theorem commited (h : Numbers w ids w') (a : Addr) :
    (w'.heap.node a).commited = (w.heap.node a).commited := by rw [h.node a]

/-- What was handed out last stands first. -/
theorem trans (h : Numbers w ids w') (h' : Numbers w' ids' w'') : Numbers w (ids' ++ ids) w'' where
  handing := h.handing.trans h'.handing
  next := h'.next.trans h.next
  node := by
    intro a
    rw [h'.node a, h.node a]
  kept := fun hid => h'.kept (h.kept hid)
  new := by
    intro a id hid
    rcases h'.new hid with hid | ⟨mem, hentry⟩
    · exact (h.new hid).imp_right fun here => ⟨List.mem_append_right _ here.1, here.2⟩
    · rw [h.entry] at hentry
      exact Or.inr ⟨List.mem_append_left _ mem, hentry⟩

/-- Numbering keeps nodes tidy: only a node with an entry is numbered. -/
theorem went (h : Numbers w ids w') (tidy : Tidy w.heap) : Went w w' where
  tidy := by
    constructor
    · intro a
      constructor
      · intro hsome hentry
        obtain ⟨id, hid⟩ := Option.ne_none_iff_exists'.mp hsome
        rw [h.entry] at hentry
        rw [h.commited]
        rcases h.new hid with hid | ⟨_, hne⟩
        · exact (tidy.nodes a).stored (by rw [hid]; exact Option.some_ne_none id) hentry
        · exact absurd hentry hne
      · intro commit unmarked
        rw [h.commited] at unmarked
        rw [h.entry]
        exact (tidy.nodes a).plain commit unmarked
    · intro a out
      rw [h.next] at out
      obtain ⟨noId, noEntry⟩ := tidy.beyond a out
      refine ⟨?_, (h.entry a).trans noEntry⟩
      by_contra hsome
      obtain ⟨id, hid⟩ := Option.ne_none_iff_exists'.mp hsome
      rcases h.new hid with hid | ⟨_, hne⟩
      · rw [noId] at hid
        cases hid
      · exact hne noEntry
  next := h.next.ge
  kept := by
    intro a _ marked
    rw [h.commited]
    exact marked
  handing := ⟨ids, h.handing⟩

end Numbers

instance : Std.Refl Hashes := ⟨fun _ placed => ⟨[], .refl placed⟩⟩

instance : IsTrans (World System) Hashes := by
  refine ⟨fun w w' w'' h h' placed => ?_⟩
  obtain ⟨ids, numbers⟩ := h placed
  obtain ⟨ids', numbers'⟩ := h' numbers.handing.placed
  exact ⟨ids' ++ ids, numbers.trans numbers'⟩

/-- To hand out ids is one of the things a call does. -/
theorem onto_of_hashes {w w' : World System} (h : Hashes w w') : Onto w w' := by
  intro tidy placed
  obtain ⟨ids, numbers⟩ := h placed
  exact numbers.went tidy

/-- The call numbers nodes and returns an id that was handed out. -/
def Hands {ε : Type} (x : Call System ε HashId) : Prop :=
  ∀ w, System.Placed w.repo → Exec.wp x (fun id w' => ∃ ids, id ∈ ids ∧ Numbers w ids w')
    (fun w' => ∃ ids, Numbers w ids w') w

namespace Hands

variable {ε : Type} {x : Call System ε HashId}

theorem steps (h : Hands x) : Exec.Steps Hashes x := fun w placed =>
  Exec.wp_state (P := fun w' => ∃ ids, Numbers w ids w')
    (Exec.wp_mono (h w placed) (fun _ _ given => ⟨given.choose, given.choose_spec.2⟩) fun _ h => h)

theorem fail (e : ε) : Hands (Exec.fail e) := fun _ placed => ⟨[], .refl placed⟩

theorem mapErr {δ : Type} {g : ε → δ} (h : Hands x) : Hands (Exec.mapErr g x) := by
  intro w placed
  rw [Exec.wp_mapErr]
  exact h w placed

/-- The id is that of the last step. -/
theorem bind {α : Type} {x : Call System ε α} {f : α → Call System ε HashId}
    (hx : Exec.Steps Hashes x) (hf : ∀ a, Hands (f a)) : Hands (x >>= f) := by
  intro w placed
  rw [Exec.wp_bind]
  refine Exec.wp_mono (hx.wp w) ?_ fun _ step => step placed
  intro a w' step
  obtain ⟨ids, numbers⟩ := step placed
  refine Exec.wp_mono (hf a w' numbers.handing.placed) ?_ ?_
  · rintro id w'' ⟨ids', mem, numbers'⟩
    exact ⟨ids' ++ ids, List.mem_append_left _ mem, numbers.trans numbers'⟩
  · rintro w'' ⟨ids', numbers'⟩
    exact ⟨ids' ++ ids, numbers.trans numbers'⟩

end Hands

/-! ## Hashing -/

section Functions

variable [Digest]

theorem steps_getHashOr (error : HashingError) (id : HashId) :
    Exec.Steps Hashes (getHashOr error id : Call System HashingError EntryHash) :=
  (Exec.steps_query _).mapErr.bind fun hash => Exec.steps_orFail _ hash

/-- A string is hashed, and its hash gets an id. -/
theorem hands_putHash (string : Bytes) : Hands (putHash string) := by
  intro w placed
  rw [putHash, Exec.wp_mapErr, Call.onRepo, Exec.wp_onPart]
  have spec : Exec.wp (System.getVacantEntryHash (Digest.blake2b string))
      (fun id s => System.Handing w.repo [id] s) (fun s => System.Handing w.repo [] s) w.repo :=
    System.Handing.getVacantEntryHash _ placed
  refine Exec.wp_mono spec ?_ ?_
  · intro id s handing
    exact ⟨[id], List.mem_singleton_self id, handing, rfl, fun _ => rfl, fun h => h, Or.inl⟩
  · intro s handing
    exact ⟨[], handing, rfl, fun _ => rfl, fun h => h, Or.inl⟩

theorem hands_hashCommit (commit : Commit) : Hands (hashCommit commit) := by
  refine Hands.bind (steps_getHashOr _ _) fun root => ?_
  cases commit.parentCommitHash with
  | none => exact hands_putHash _
  | some id => exact Hands.bind (steps_getHashOr _ _) fun _ => hands_putHash _

variable {nodeHash : Addr → Call System HashingError EntryHash}

omit [Digest] in
theorem steps_hashNodes (h : ∀ a, Exec.Steps Hashes (nodeHash a))
    (entries : List (KeyFragment × Addr)) : Exec.Steps Hashes (hashNodes nodeHash entries) :=
  Exec.Steps.mapEach fun p _ =>
    (Exec.steps_gets _).bind fun _ => (h p.2).bind fun _ => Exec.steps_pure _

/-- An inode is hashed after its children. -/
theorem hands_hashLongInode (h : ∀ a, Exec.Steps Hashes (nodeHash a)) (inode : Inode) :
    Hands (hashLongInode nodeHash inode) := by
  cases inode with
  | empty => exact Hands.fail _
  | value entries => exact Hands.bind (steps_hashNodes h entries) fun _ => hands_putHash _
  | tree depth children pointers =>
      exact Hands.bind (Exec.Steps.mapEach fun p _ =>
        (steps_getHashOr _ p.2).bind fun _ => Exec.steps_pure _) fun _ => hands_putHash _

theorem steps_pushPointer (h : ∀ a, Exec.Steps Hashes (nodeHash a)) (i : Fin 32) (inode : Inode) :
    Exec.Steps Hashes (pushPointer nodeHash i inode) := by
  cases inode with
  | empty => exact Exec.steps_pure _
  | value entries => exact (hands_hashLongInode h _).steps.bind fun _ => Exec.steps_pure _
  | tree depth children pointers =>
      exact (hands_hashLongInode h _).steps.bind fun _ => Exec.steps_pure _

/-- By the recursion of the function: each part is divided on its own. -/
theorem steps_partitionEntries (h : ∀ a, Exec.Steps Hashes (nodeHash a)) (depth : UInt32)
    (entries : List (KeyFragment × Addr)) :
    Exec.Steps Hashes (partitionEntries nodeHash depth entries) := by
  -- Induction on the depths that are left.
  obtain ⟨left, hleft⟩ : ∃ left, left = 2 ^ 32 - depth.toNat := ⟨_, rfl⟩
  induction left generalizing depth entries with
  | zero =>
      have := depth.toNat_lt
      omega
  | succ left ih =>
      rw [partitionEntries]
      split
      next => exact Exec.steps_pure _
      next =>
        split
        next => exact Exec.steps_pure _
        next =>
          split
          next deeper =>
            refine (Exec.Steps.mapEach fun i _ => ?_).bind fun _ => Exec.steps_pure _
            refine (Exec.steps_orAbort _).bind fun sub => ?_
            have below := ih (depth + 1) sub (by rw [toNat_succ deeper]; omega)
            exact below.bind fun inode => steps_pushPointer h i inode
          next => exact Exec.steps_abort

/-- Short directories are hashed as they are, long ones as inodes. -/
theorem hands_hashTree (h : ∀ a, Exec.Steps Hashes (nodeHash a)) (tree : Tree) :
    Hands (hashTree nodeHash tree) := by
  rw [hashTree]
  split
  · exact Hands.bind (steps_partitionEntries h 0 tree.entries) fun inode =>
      hands_hashLongInode h inode
  · exact Hands.bind (steps_hashNodes h tree.entries) fun _ => hands_putHash _

theorem hands_hashEntry (h : ∀ a, Exec.Steps Hashes (nodeHash a)) (entry : Entry) :
    Hands (hashEntry nodeHash entry) := by
  cases entry with
  | tree tree => exact hands_hashTree h tree
  | blob value => exact hands_putHash _
  | commit commit => exact hands_hashCommit commit

/-- A node without an id is numbered after the nodes below it. -/
theorem steps_entryHashId (fuel : Nat) (a : Addr) :
    Exec.Steps Hashes (entryHashId fuel a : Call System HashingError HashId) := by
  induction fuel generalizing a with
  | zero => exact Exec.steps_abort
  | succ fuel ih =>
      intro w placed
      refine Exec.wp_state (P := fun w' => ∃ ids, Numbers w ids w') ?_
      rw [entryHashId, Exec.wp_bind, Call.readNode, Exec.wp_gets]
      cases hcached : (w.heap.node a).entryHash with
      | some id => exact ⟨[], .refl placed⟩
      | none =>
          show Exec.wp (_ >>= _) _ _ w
          rw [Exec.wp_bind]
          refine Exec.wp_orFail _ _ ?_ fun _ => ⟨[], .refl placed⟩
          intro entry hentry
          rw [Exec.wp_bind]
          have child : ∀ b, Exec.Steps Hashes (entryHashId fuel b >>= fun id =>
              getHashOr (.hashIdNotFound id) id : Call System HashingError EntryHash) :=
            fun b => (ih b).bind fun id => steps_getHashOr _ id
          refine Exec.wp_mono (hands_hashEntry child entry w placed) ?_ fun _ h => h
          rintro id w' ⟨ids, mem, numbers⟩
          rw [Exec.wp_bind, Call.updateNode, Exec.wp_modify]
          refine ⟨ids, numbers.handing, numbers.next, ?_, ?_, ?_⟩
          · intro b
            by_cases hb : b = a
            · rw [hb, Heap.set_node_self, numbers.node a]
            · rw [Heap.set_node_of_ne hb]
              exact numbers.node b
          · intro b j hj
            have hb : b ≠ a := by
              rintro rfl
              rw [hcached] at hj
              cases hj
            rw [Heap.set_node_of_ne hb]
            exact numbers.kept hj
          · intro b j hj
            by_cases hb : b = a
            · rw [hb, Heap.set_node_self] at hj
              cases hj
              rw [hb, hentry]
              exact Or.inr ⟨mem, Option.some_ne_none entry⟩
            · rw [Heap.set_node_of_ne hb] at hj
              exact numbers.new hj

end Functions

end NodeFuzzer
