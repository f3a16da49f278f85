import NodeFuzzer.Context.Gathering

/-!
# Commits that are found keep their entries

A commit writes entries with new ids and takes over what earlier commits wrote.  It is
`Careful` when the ids that it writes are of the running cycle, what it takes over is still
stored, and the thread comes to all of it that stands in an older slot.  As long as the
commits of a run are so, all that a commit reaches stays as it was while the commit is
found.
-/

namespace NodeFuzzer

/-! ## A commit of the store -/

namespace System

/-- The entries of a commit, on the way from where its ids were handed out to where the
commit is found. -/
structure Putting (s : System) (ids : List HashId) (shared : HashId → Prop) (id : HashId)
    (data : SerializingData) : Prop where
  commit : ∃ value, (id, value) ∈ data.batch
  keys : ∀ p ∈ data.batch,
    p.1 ∈ ids ∨ s.Unowned p.1 ∧ s.store.hashes.getValue p.1 = none
  references : ∀ p ∈ data.batch, ∀ r ∈ p.2.references,
    (∃ value, (r, value) ∈ data.batch) ∨ shared r
  older : ∀ r, shared r → r ∈ data.referencedOlderEntries
  stored : ∀ r, shared r → Held s 0 r
  walked : ∀ r j, shared r → Reach s r j → (∃ slot ∈ s.drained.older, (slot.get j).isSome) →
    ∃ r', shared r' ∧ s.drained.Walked [r'] j

namespace Putting

variable {s s₁ : System} {ids : List HashId} {shared : HashId → Prop} {id : HashId}
  {data : SerializingData}

/-- The ids of the batch are of the running cycle and have no value. -/
theorem new (putting : Putting s ids shared id data) (handing : Handing s ids s₁)
    {p : HashId × Serialized} (mem : p ∈ data.batch) :
    s₁.Unowned p.1 ∧ s₁.store.hashes.getValue p.1 = none := by
  rcases putting.keys p mem with given | ⟨unowned, blank⟩
  · exact (handing.given p.1 given).2
  · refine ⟨handing.unowned p.1 unowned, ?_⟩
    exact (handing.same p.1 (handing.not_given unowned)).2.trans blank

/-- What is taken over is as it was when the batch is written. -/
theorem carry (putting : Putting s ids shared id data) (safe : Safe s) (handing : Handing s ids s₁) :
    Carry s (s₁.withStore (s₁.store.writeBatch data.batch)) 0 0 := by
  have before : Carry s s₁ 0 0 := carry_handing safe.placed handing 0
  have after : Carry s₁ (s₁.withStore (s₁.store.writeBatch data.batch)) 0 0 :=
    carry_write (fun _ mem => (putting.new handing mem).2) 0
  intro id value here kept
  exact before.trans after here kept

/-- The commit reaches what it wrote, and what is below the ids that it took over. -/
theorem reach (putting : Putting s ids shared id data) (safe : Safe s) (handing : Handing s ids s₁)
    {j : HashId} (reach : Reach (s₁.withStore (s₁.store.writeBatch data.batch)) id j) :
    (∃ value, (j, value) ∈ data.batch) ∨ ∃ r, shared r ∧ Reach s r j := by
  -- Down from the commit: through what is written, and then through what was there before.
  induction reach with
  | refl => exact Or.inl putting.commit
  | @tail b c _ refers ih =>
      obtain ⟨value, here, mem⟩ := refers
      rcases ih with ⟨value', written⟩ | ⟨r, taken, below⟩
      · obtain ⟨value'', written', there⟩ := InMemory.writeBatch_written written s₁.store
        have same : value'' = value := Option.some.inj (there.symm.trans here)
        rw [same] at written'
        exact (putting.references _ written' c mem).imp_right fun taken => ⟨c, taken, .refl⟩
      · refine Or.inr ⟨r, taken, ?_⟩
        have lasts := ((putting.stored r taken).carry (putting.carry safe handing)).2
        obtain ⟨value', before, after, _⟩ := lasts.entry b below
        have same : value' = value := Option.some.inj (after.symm.trans here)
        rw [same] at before
        exact below.tail ⟨value, before, mem⟩

/-- All of it is stored. -/
theorem held (putting : Putting s ids shared id data) (safe : Safe s) (handing : Handing s ids s₁) :
    Held (s₁.withStore (s₁.store.writeBatch data.batch)) 0 id := by
  intro j reach
  rcases putting.reach safe handing reach with ⟨value, mem⟩ | ⟨r, taken, below⟩
  · obtain ⟨value', _, there⟩ := InMemory.writeBatch_written mem s₁.store
    obtain ⟨drained, leaving⟩ := drained_write s₁ data.batch
    have kept := (putting.new handing mem).1.kept 0
    exact ⟨⟨value', there⟩, by rw [leaving]; exact kept.stays, by rw [drained]; exact kept.young⟩
  · obtain ⟨held, lasts⟩ := (putting.stored r taken).carry (putting.carry safe handing)
    exact held j ((lasts.reach j).mpr below)

/-- The thread comes to all of it that stands in an older slot. -/
theorem comes (putting : Putting s ids shared id data) (safe : Safe s) (handing : Handing s ids s₁)
    {j : HashId} (reach : Reach (s₁.withStore (s₁.store.writeBatch data.batch)) id j)
    (old : ∃ slot ∈ s.drained.older, (slot.get j).isSome) :
    s.drained.Walked data.referencedOlderEntries j := by
  rcases putting.reach safe handing reach with ⟨value, mem⟩ | ⟨r, taken, below⟩
  · obtain ⟨slot, here, some⟩ := old
    have nowhere := (putting.new handing mem).1.nowhere.2
    rw [handing.drained] at nowhere
    have gone := Cycles.places_eq_zero.mp nowhere slot (List.mem_append_left _ here)
    rw [gone] at some
    cases some
  · obtain ⟨r', taken', walked⟩ := putting.walked r j taken below old
    refine walked.mono ?_
    intro i mem
    rw [List.mem_singleton.mp mem]
    exact putting.older r' taken'

/-- The batch is written. -/
theorem written (putting : Putting s ids shared id data) (safe : Safe s)
    (handing : Handing s ids s₁) :
    Onward s (s₁.withStore (s₁.store.writeBatch data.batch)) := by
  have handed := Onward.handing safe handing
  have new := fun p mem => putting.new handing (p := p) mem
  have wrote := Onward.write handed.safe (fun p mem => (new p mem).1) fun p mem => (new p mem).2
  refine handed.trans wrote ?_
  intro k j here _
  rw [handing.contextHashes]
  exact here

/-- The commit is put, and the thread is told. -/
theorem published [Digest] (putting : Putting s ids shared id data) (safe : Safe s)
    (handing : Handing s ids s₁) {h : EntryHash}
    (hash : (s₁.store.writeBatch data.batch).hashes.getHash id = some h) :
    Onward s ((s₁.withStore (s₁.store.writeBatch data.batch)).published id
      data.referencedOlderEntries) := by
  have wrote := putting.written safe handing
  have drained : (s₁.withStore (s₁.store.writeBatch data.batch)).drained = s.drained :=
    (drained_write s₁ data.batch).1.trans handing.drained
  refine wrote.trans (Onward.publish wrote.safe hash (putting.held safe handing) ?_) ?_
  · intro j reach old
    rw [drained] at old ⊢
    exact putting.comes safe handing reach old
  · intro k j here _
    have same : (s₁.store.writeBatch data.batch).contextHashes = s.store.contextHashes :=
      (InMemory.writeBatch_contextHashes data.batch s₁.store).trans handing.contextHashes
    rw [withStore_store, same]
    exact here

end Putting

end System

/-! ## Calls -/

/-- What a commit of the tree writes has new ids, and what it takes over is stored and is
come to by the thread. -/
structure Careful (w : World System) (root : Tree) : Prop where
  fresh : ∀ a id, Writes w root a → (w.heap.node a).entryHash = some id →
    w.repo.Unowned id ∧ w.repo.store.hashes.getValue id = none
  stored : ∀ a, Meets w.heap (.tree root) a → (w.heap.node a).commited = true →
    ∃ id, (w.heap.node a).entryHash = some id ∧ System.Held w.repo 0 id
  walked : ∀ id j, TakesOver w root id → System.Reach w.repo id j →
    (∃ slot ∈ w.repo.drained.older, (slot.get j).isSome) →
    ∃ r, TakesOver w root r ∧ w.repo.drained.Walked [r] j

/-- A process whose nodes are tidy and whose commits are kept. -/
structure SafeWorld (w : World System) : Prop where
  tidy : Tidy w.heap
  safe : System.Safe w.repo

/-- A later state of it. -/
structure Forth (w w' : World System) : Prop where
  tidy : Tidy w'.heap
  onward : System.Onward w.repo w'.repo

namespace Forth

variable {w w' : World System}

theorem world (h : Forth w w') : SafeWorld w' := ⟨h.tidy, h.onward.safe⟩

theorem refl (safe : SafeWorld w) : Forth w w := ⟨safe.tidy, .refl safe.safe⟩

/-- A call that hands out ids only. -/
theorem onto (safe : SafeWorld w) (step : Onto w w') : Forth w w' := by
  have went := step safe.tidy safe.safe.placed
  obtain ⟨ids, handing⟩ := went.handing
  exact ⟨went.tidy, .handing safe.safe handing⟩

end Forth

theorem Careful.putting {w : World System} {root : Tree} {ids : List HashId} {id : HashId}
    {data : SerializingData} (careful : Careful w root) (gathered : Gathered w root ids id data) :
    System.Putting w.repo ids (TakesOver w root) id data where
  commit := gathered.commit
  keys := by
    intro p mem
    refine (gathered.keys p mem).imp_right ?_
    rintro ⟨a, writes, hid⟩
    exact careful.fresh a p.1 writes hid
  references := gathered.references
  older := gathered.older
  stored := by
    rintro r ⟨a, meets, marked, hr⟩
    obtain ⟨id, hid, held⟩ := careful.stored a meets marked
    rw [hr] at hid
    cases hid
    exact held
  walked := careful.walked

section Calls

variable [Digest] {w : World System}

/-- A commit that has a hash is put. -/
theorem wp_putContextHash {s : System} {id : HashId} {h : EntryHash}
    (hash : s.store.hashes.getHash id = some h) :
    Exec.wp (KeyValueStoreBackend.putContextHash id : Exec System DBError Unit)
      (fun _ s' => s' = s.withStore (InMemory.putContextHash id s.store).2) (fun _ => False) s := by
  have put : InMemory.putContextHash id s.store =
      (.ok (), (InMemory.putContextHash id s.store).2) := by
    rw [InMemory.putContextHash, hash]
  show Exec.wp (Exec.onPart System.store _ (InMemory.putContextHash id)) _ _ _
  rw [Exec.wp_onPart]
  unfold Exec.wp
  rw [put]
  exact rfl

/-- A commit that is careful. -/
theorem Careful.commit {c : TezedgeContext} (careful : Careful w c.tree.root)
    (safe : SafeWorld w) (author message : String) (date : Int64) :
    Exec.wp (c.commit author message date) (fun _ w' => Forth w w') (fun w' => Forth w w') w := by
  have here : Forth w w := .refl safe
  have numbered : ∀ a, Meets w.heap (.tree c.tree.root) a → (w.heap.node a).commited = true →
      (w.heap.node a).entryHash ≠ none := by
    intro a meets marked none
    obtain ⟨id, hid, _⟩ := careful.stored a meets marked
    rw [none] at hid
    cases hid
  rw [TezedgeContext.commit, Exec.wp_bind]
  refine Exec.wp_orFail _ _ ?_ fun _ => here
  intro time _
  rw [Exec.wp_bind, Exec.wp_mapErr]
  have prepared := prepareCommit_gathers c.tree time author message c.parentCommitHash safe.tidy
    safe.safe.placed numbered
  have steps := (steps_prepareCommit c.tree time author message c.parentCommitHash true).wp w
  refine Exec.wp_mono (Exec.wp_and prepared steps) ?_ fun w' step => .onto safe step.2
  rintro ⟨id, data⟩ w₁ ⟨⟨ids, handing, _, gathered⟩, step⟩
  have tidy₁ := (step safe.tidy safe.safe.placed).tidy
  have putting := careful.putting gathered
  -- The batch is written.
  refine wp_onStore (P := fun _ s => s = w₁.repo.withStore (w₁.repo.store.writeBatch data.batch))
    rfl ?_
  rintro _ _ rfl
  cases hash : (w₁.repo.store.writeBatch data.batch).hashes.getHash id with
  | none =>
      rw [Exec.wp_bind, TezedgeContext.onStore, Exec.wp_mapErr, Call.onRepo, Exec.wp_onPart]
      show Exec.wp (Exec.onPart System.store _ (InMemory.putContextHash id)) _ _ _
      rw [Exec.wp_onPart]
      unfold Exec.wp InMemory.putContextHash
      rw [System.withStore_store, hash]
      exact ⟨tidy₁, putting.written safe.safe handing⟩
  | some h =>
      have published := putting.published safe.safe handing hash
      obtain ⟨s₃, hs₃⟩ : ∃ s₃, s₃ = (w₁.repo.withStore
        (w₁.repo.store.writeBatch data.batch)).published id data.referencedOlderEntries := ⟨_, rfl⟩
      rw [← hs₃] at published
      -- The commit is put, and the thread is told.
      refine wp_onStore (wp_putContextHash hash) ?_
      rintro _ _ rfl
      refine wp_onStore (P := fun _ s => s = s₃) hs₃.symm ?_
      rintro _ s rfl
      have found : s.store.hashes.getHash id = some h := by
        rw [hs₃, (System.published_spec hash).hashes]
        exact hash
      refine wp_getCommitHash (congrArg Except.ok found) ?_
      refine wp_onStore (P := fun _ s' => s' = s) rfl ?_
      rintro _ _ rfl
      exact ⟨tidy₁, published⟩

end Calls

/-! ## Whole runs -/

/-- What happens next: the process asks for something, or the thread makes a step. -/
inductive Move where
  | call (op : Op)
  | gc
deriving DecidableEq

namespace Session

section Moves

variable [Digest]

/-- The state after it. -/
def move (s : Session System) : Move → Session System
  | .call op => (perform op s).2
  | .gc => { s with world := { s.world with repo := s.world.repo.gcStep } }

/-- The state after some of them. -/
def afterMoves (s : Session System) (moves : List Move) : Session System := moves.foldl move s

end Moves

/-- The calls of a process hand out ids only. -/
def Hands (s s' : Session System) : Prop := Onto s.world s'.world

instance : Std.Refl Hands := ⟨fun s => Std.Refl.refl (r := Onto) s.world⟩

instance : IsTrans (Session System) Hands :=
  ⟨fun s s' s'' h h' => IsTrans.trans (r := Onto) s.world s'.world s''.world h h'⟩

theorem steps_onWorld {α : Type} {x : Call System ContextError α} (h : Exec.Steps Onto x) :
    Exec.Steps Hands (onWorld x) :=
  Exec.steps_of_wp fun s => (wp_onWorld).mpr (h.wp s.world)

theorem steps_withContext {f : TezedgeContext → Exec (Session System) ContextError Reply}
    (h : ∀ c, Exec.Steps Hands (f c)) (i : Nat) : Exec.Steps Hands (withContext i f) :=
  Exec.steps_of_wp fun s => wp_withContext (fun _ => Std.Refl.refl s) fun c _ => (h c).wp s

theorem steps_keepContext (c : TezedgeContext) : Exec.Steps Hands (keepContext c) :=
  fun s => Std.Refl.refl (r := Onto) s.world

theorem steps_keepTree (t : WorkingTree) : Exec.Steps Hands (keepTree t) :=
  fun s => Std.Refl.refl (r := Onto) s.world

theorem steps_keepFound {α : Type} {keep : α → Exec (Session System) ContextError Reply}
    (h : ∀ a, Exec.Steps Hands (keep a)) (a : Option α) : Exec.Steps Hands (keepFound keep a) := by
  cases a with
  | none => exact Exec.steps_pure _
  | some a => exact h a

/-- A context with a changed tree. -/
theorem steps_keepChanged {c : TezedgeContext} {x : Call System MerkleError WorkingTree}
    (h : Exec.Steps Onto x) : Exec.Steps Hands (do
      let c ← onWorld (do
        let tree ← Exec.mapErr ContextError.merkleStorageError x
        pure (c.withTree tree))
      keepContext c) :=
  (steps_onWorld (h.mapErr.bind fun _ => Exec.steps_pure _)).bind fun c => steps_keepContext c

/-- An answer to a question. -/
theorem steps_answer {α : Type} {x : Call System ContextError α} (h : Exec.Steps Onto x)
    (reply : α → Reply) : Exec.Steps Hands (do
      let a ← onWorld x
      pure (reply a)) :=
  (steps_onWorld h).bind fun _ => Exec.steps_pure _

/-- Calls that neither commit nor start a cycle. -/
theorem steps_perform [Digest] {op : Op} (notCommit : ∀ i author message date,
    op ≠ .commit i author message date) (notCycle : op ≠ .cycleStarted) :
    Exec.Steps Hands (perform op) := by
  cases op with
  | new => exact steps_keepContext _
  | checkout contextHash =>
      exact (steps_onWorld (steps_checkout contextHash)).bind (steps_keepFound steps_keepContext)
  | add i key value =>
      exact steps_withContext (fun c => steps_keepChanged (c.tree.steps_add key value)) i
  | delete i key => exact steps_withContext (fun c => steps_keepChanged (c.tree.steps_delete key)) i
  | copy i fromKey toKey =>
      refine steps_withContext (fun c => ?_) i
      refine (steps_onWorld ?_).bind (steps_keepFound steps_keepContext)
      exact (c.tree.steps_copy fromKey toKey).mapErr.bind fun _ => Exec.steps_pure _
  | addTree i key t =>
      refine steps_withContext (fun c => (Exec.steps_gets _).bind fun trees => ?_) i
      cases trees[t]? with
      | none => exact Exec.steps_pure _
      | some tree => exact steps_keepChanged (c.tree.steps_addTree key tree)
  | findTree i key =>
      refine steps_withContext (fun c => ?_) i
      exact (steps_onWorld (c.tree.steps_findTree key).mapErr).bind (steps_keepFound steps_keepTree)
  | find i key =>
      exact steps_withContext (fun c => steps_answer (c.tree.steps_find key).mapErr _) i
  | mem i key => exact steps_withContext (fun c => steps_answer (c.tree.steps_mem key).mapErr _) i
  | memTree i key =>
      exact steps_withContext (fun c => steps_answer (c.tree.steps_memTree key).mapErr _) i
  | getMerkleRoot i =>
      exact steps_withContext (fun c => steps_answer (steps_getMerkleRoot c) _) i
  | hash i author message date =>
      exact steps_withContext (fun c => steps_answer (steps_hash c author message date) _) i
  | commit i author message date => exact absurd rfl (notCommit i author message date)
  | cycleStarted => exact absurd rfl notCycle

end Session

/-- A commit has to be careful, unless its date is refused. -/
def Move.Careful (s : Session System) : Move → Prop
  | .call (.commit i _ _ date) => TezedgeContext.commitTime date = none ∨
      ∀ c ∈ s.contexts[i]?, NodeFuzzer.Careful s.world c.tree.root
  | _ => True

section Runs

variable [Digest] {s s' s'' : Session System}

/-- A run of the process and the thread in which each move meets `P` where it is made. -/
def MovesIf (P : Session System → Move → Prop) : Session System → Session System → Prop :=
  Relation.ReflTransGen fun s s' => ∃ m, P s m ∧ s.move m = s'

/-- What one move does. -/
theorem forth_move {m : Move} (safe : SafeWorld s.world) (careful : m.Careful s) :
    Forth s.world (s.move m).world := by
  cases m with
  | gc =>
      have step := System.Handing.gcStep safe.safe.placed (System.gcStep_spec s.world.repo)
      exact ⟨safe.tidy, .handing safe.safe step⟩
  | call op =>
      by_cases commits : ∃ i author message date, op = .commit i author message date
      · obtain ⟨i, author, message, date, rfl⟩ := commits
        refine Exec.wp_state (P := fun s' : Session System => Forth s.world s'.world) ?_
        refine wp_withContext (fun _ => .refl safe) fun c hc => ?_
        rw [Exec.wp_bind, wp_onWorld]
        rcases careful with refused | careful
        · rw [TezedgeContext.commit, Exec.wp_bind, refused]
          exact .refl safe
        · exact (careful c hc).commit safe author message date
      · by_cases cycle : op = .cycleStarted
        · rw [cycle]
          exact ⟨safe.tidy, .newCycle safe.safe⟩
        · refine .onto safe (Session.steps_perform ?_ cycle s)
          exact fun i author message date h => commits ⟨i, author, message, date, h⟩

/-- The context hash resolves to the commit. -/
def Resolves (h : ContextHash) (id : HashId) (s : Session System) : Prop :=
  s.world.repo.store.getContextHash h = some id

theorem MovesIf.safe (run : MovesIf (fun s m => m.Careful s) s s') (safe : SafeWorld s.world) :
    SafeWorld s'.world := by
  induction run with
  | refl => exact safe
  | tail _ step ih =>
      obtain ⟨m, careful, rfl⟩ := step
      exact (forth_move ih careful).world

/-- What a commit reaches lasts while it is found. -/
theorem MovesIf.lasts {h : ContextHash} {id : HashId}
    (run : MovesIf (fun s m => m.Careful s ∧ Resolves h id (s.move m)) s s')
    (safe : SafeWorld s.world) (found : Resolves h id s) :
    (SafeWorld s'.world ∧ Resolves h id s') ∧ System.Lasts s.world.repo s'.world.repo id := by
  induction run with
  | refl => exact ⟨⟨safe, found⟩, ((Forth.refl safe).onward.lasts _ id found found)⟩
  | tail _ step ih =>
      obtain ⟨m, ⟨careful, found'⟩, rfl⟩ := step
      obtain ⟨⟨safe', before⟩, lasts⟩ := ih
      have forth := forth_move safe' careful
      exact ⟨⟨forth.world, found'⟩, lasts.trans (forth.onward.lasts _ id before found')⟩

omit [Digest] in
theorem safeWorld_start (disabled : Bool) (schedule : List Nat) :
    SafeWorld (Session.start disabled schedule).world where
  tidy := tidy_empty
  safe := by
    have empty : ∀ id, (System.new disabled schedule).drained.places id = 0 := by
      intro id
      cases disabled <;> rfl
    refine ⟨System.placed_new disabled schedule, ?_, ⟨List.replicate 6 [], [], rfl, rfl⟩, ?_⟩
    · exact fun _ slot mem id => Cycles.places_eq_zero.mp (empty id) slot mem
    · intro k id found
      cases found

end Runs

/-- Everything below an id is stored with the hash and the value that it had, and no id of it is
free, will be free by what the thread was told, or is handed out next. -/
structure System.Intact (s s' : System) (id : HashId) : Prop where
  reach : ∀ j, Reach s' id j ↔ Reach s id j
  entry : ∀ j, Reach s id j → ∃ hash value,
    (s.store.hashes.getHash j = some hash ∧ s.store.hashes.getValue j = some value) ∧
      s'.store.hashes.getHash j = some hash ∧ s'.store.hashes.getValue j = some value
  kept : ∀ j, Reach s id j → j ∉ s'.leaving
  vacant : ∀ j, Reach s id j → ∀ schedule hash,
    (getVacantEntryHash hash { s' with schedule := schedule }).1 ≠ .ok j

theorem System.Held.intact {s s' : System} {n : Nat} {id : HashId} (placed : Placed s)
    (placed' : Placed s') (lasts : Lasts s s' id) (held : Held s' n id) : Intact s s' id where
  reach := lasts.reach
  entry := by
    intro j reach
    obtain ⟨value, here, there, same⟩ := lasts.entry j reach
    obtain ⟨_, hash, hhash⟩ := placed.getHash here
    exact ⟨hash, value, ⟨hhash, here⟩, same.trans hhash, there⟩
  kept := fun j reach => (held j ((lasts.reach j).mpr reach)).2.stays
  vacant := by
    intro j reach schedule hash handed
    obtain ⟨⟨value, there⟩, kept⟩ := held j ((lasts.reach j).mpr reach)
    obtain ⟨range, _⟩ := placed'.getHash there
    have scheduled : Placed { s' with schedule := schedule } :=
      ⟨placed'.once, placed'.range, placed'.bounded⟩
    have handing := Exec.wp_ok (Handing.getVacantEntryHash hash scheduled)
      (Prod.ext_iff.mpr ⟨handed, rfl⟩)
    exact (handing.kept (n := n) ⟨kept.stays, kept.young⟩ range).1 (List.mem_singleton_self j)

/-- As long as all commits are careful, what a commit reaches stays as it is while the commit is
found. -/
theorem reachable_intact [Digest] {disabled : Bool} {schedule : List Nat} {s s' : Session System}
    {h : ContextHash} {id : HashId}
    (before : MovesIf (fun s m => m.Careful s) (.start disabled schedule) s)
    (found : Resolves h id s)
    (after : MovesIf (fun s m => m.Careful s ∧ Resolves h id (s.move m)) s s') :
    System.Intact s.world.repo s'.world.repo id := by
  have safe := before.safe (safeWorld_start disabled schedule)
  obtain ⟨⟨safe', found'⟩, lasts⟩ := after.lasts safe found
  obtain ⟨⟨i, stands⟩, held⟩ := safe'.safe.found _ id found'
  exact (held i stands).intact safe.safe.placed safe'.safe.placed lasts

/-! ## Runs of the sample -/

section Lists

variable [Digest] {P : Session System → Move → Prop}

/-- Each move of a list meets a condition on the state it is made in. -/
def AlongMoves (P : Session System → Move → Prop) : Session System → List Move → Prop
  | _, [] => True
  | s, m :: moves => P s m ∧ AlongMoves P (s.move m) moves

instance decidableAlongMoves [∀ s m, Decidable (P s m)] :
    (s : Session System) → (moves : List Move) → Decidable (AlongMoves P s moves)
  | _, [] => inferInstanceAs (Decidable True)
  | s, m :: moves =>
      have := decidableAlongMoves (s.move m) moves
      inferInstanceAs (Decidable (P s m ∧ AlongMoves P (s.move m) moves))

theorem AlongMoves.run {s : Session System} {moves : List Move} (along : AlongMoves P s moves) :
    MovesIf P s (s.afterMoves moves) := by
  induction moves generalizing s with
  | nil => exact .refl
  | cons m moves ih => exact .head ⟨m, along.1, rfl⟩ (ih along.2)

theorem AlongMoves.and {Q : Session System → Move → Prop} {s : Session System} {moves : List Move}
    (along : AlongMoves P s moves) (along' : AlongMoves Q s moves) :
    AlongMoves (fun s m => P s m ∧ Q s m) s moves := by
  induction moves generalizing s with
  | nil => exact trivial
  | cons m moves ih => exact ⟨⟨along.1, along'.1⟩, ih along.2 along'.2⟩

instance (h : ContextHash) (id : HashId) (s : Session System) : Decidable (Resolves h id s) :=
  inferInstanceAs (Decidable (_ = _))

end Lists

/-- A set of nodes that has the children of the entry, and those of its unmarked nodes. -/
theorem Meets.mem {heap : Heap} {entry : Entry} {l : List Addr} {a : Addr}
    (meets : Meets heap entry a) (start : ∀ b ∈ entry.children, b ∈ l)
    (next : ∀ b ∈ l, (heap.node b).commited = false → ∀ e ∈ (heap.node b).entry,
      ∀ c ∈ e.children, c ∈ l) : a ∈ l := by
  induction meets with
  | child mem => exact start _ mem
  | under _ unmarked here mem ih => exact next _ ih unmarked _ here _ mem

/-- A commit of new nodes, and of leaves that stand in no older slot. -/
theorem careful_of_leaves {w : World System} {root : Tree} {l : List Addr}
    (start : ∀ b ∈ (Entry.tree root).children, b ∈ l)
    (next : ∀ b ∈ l, (w.heap.node b).commited = false → ∀ e ∈ (w.heap.node b).entry,
      ∀ c ∈ e.children, c ∈ l)
    (new : ∀ b ∈ l, (w.heap.node b).commited = false → (w.heap.node b).entryHash = none)
    (leaf : ∀ b ∈ l, (w.heap.node b).commited = true → ∃ id ∈ (w.heap.node b).entryHash,
      (∃ value ∈ w.repo.store.hashes.getValue id, value.references = []) ∧ id ∉ w.repo.leaving ∧
        ∀ slot ∈ w.repo.drained.older, slot.get id = none) : Careful w root := by
  have below : ∀ id j, (∃ value ∈ w.repo.store.hashes.getValue id, value.references = []) →
      System.Reach w.repo id j → j = id := by
    rintro id j ⟨value, here, none⟩ reach
    rcases reach.cases_head with rfl | ⟨r, ⟨value', here', mem⟩, _⟩
    · rfl
    · rw [here'] at here
      cases here
      rw [none] at mem
      cases mem
  refine ⟨?_, ?_, ?_⟩
  · rintro a id ⟨meets, unmarked⟩ hid
    rw [new a (meets.mem start next) unmarked] at hid
    cases hid
  · intro a meets marked
    obtain ⟨id, hid, value, stays, _⟩ := leaf a (meets.mem start next) marked
    refine ⟨id, hid, fun j reach => ?_⟩
    rw [below id j value reach]
    obtain ⟨value, here, _⟩ := value
    exact ⟨⟨value, here⟩, stays, fun i lt => absurd lt (Nat.not_lt_zero i)⟩
  · rintro id j ⟨a, meets, marked, hid⟩ reach old
    obtain ⟨id', hid', value, _, out⟩ := leaf a (meets.mem start next) marked
    rw [hid] at hid'
    cases hid'
    rw [below id j value reach] at old
    obtain ⟨slot, mem, some⟩ := old
    rw [out slot mem] at some
    cases some

section Sample

local instance safetyDigest : Digest := sampleDigest

/-- A cycle ends, and the thread obeys. -/
def cycleEnds : List Move := [.call .cycleStarted, .gc, .gc, .gc]

/-- A context is committed, and the thread obeys. -/
def commitMoves (i : Nat) : List Move :=
  [.call (.commit i "author" "message" 1), .gc, .gc, .gc]

/-- The commit of the first context. -/
def thirdId : HashId := ⟨3, by decide, by decide⟩

/-- A context with one key is committed. -/
def firstMoves : List Move := [.call .new, .call (.add 0 ["a"] [1])] ++ commitMoves 1

/-- Another key is added in the next cycle. -/
def secondMoves : List Move := cycleEnds ++ [.call (.add 1 ["b"] [2])] ++ commitMoves 2

/-- The state in which it is found. -/
def commitedOnce : Session System := (Session.start false []).afterMoves firstMoves

/-- Its hash. -/
def commitedHash : ContextHash :=
  (commitedOnce.world.repo.store.hashes.getHash thirdId).getD System.zeroHash

theorem careful_firstMoves :
    AlongMoves (fun s m => m.Careful s) (.start false []) firstMoves := by
  refine ⟨trivial, trivial, Or.inr fun c hc => ?_, trivial, trivial, trivial, trivial⟩
  cases hc
  exact careful_of_leaves (l := [0]) (by decide +kernel) (by decide +kernel) (by decide +kernel)
    (by decide +kernel)

theorem careful_secondMoves : AlongMoves (fun s m => m.Careful s) commitedOnce secondMoves := by
  refine ⟨trivial, trivial, trivial, trivial, trivial, Or.inr fun c hc => ?_, trivial, trivial,
    trivial, trivial⟩
  cases hc
  exact careful_of_leaves (l := [0, 1]) (by decide +kernel) (by decide +kernel) (by decide +kernel)
    (by decide +kernel)

theorem reachable_intact_secondMoves : System.Intact commitedOnce.world.repo
    (commitedOnce.afterMoves secondMoves).world.repo thirdId := by
  have found : Resolves commitedHash thirdId commitedOnce := by decide +kernel
  have still : AlongMoves (fun s m => Resolves commitedHash thirdId (s.move m)) commitedOnce
      secondMoves := by decide +kernel
  exact reachable_intact careful_firstMoves.run found (careful_secondMoves.and still).run

/-- A directory gets a key in each of two cycles, and a key is added beside it in the third. -/
def threeCommits : Session System := (Session.start false []).afterMoves
  ([.call .new, .call (.add 0 ["a", "y"] [1])] ++ commitMoves 1 ++ cycleEnds ++
    [.call (.add 1 ["a", "z"] [2])] ++ commitMoves 2 ++ cycleEnds ++
    [.call (.add 2 ["b"] [3])] ++ commitMoves 3)

/-- Six cycles end, and a new context is hashed. -/
def sixCycles : List Move := (List.replicate 6 cycleEnds).flatten ++
  [.call .new, .call (.add 4 ["q"] [7]), .call (.getMerkleRoot 5)]

/-- The directory, the root and the commit of the third one. -/
def sixthId : HashId := ⟨6, by decide, by decide⟩

def tenthId : HashId := ⟨10, by decide, by decide⟩

def lastId : HashId := ⟨11, by decide, by decide⟩

/-- Its hash. -/
def lastHash : ContextHash :=
  (threeCommits.world.repo.store.hashes.getHash lastId).getD System.zeroHash

/-- The directory stands in the newest slot when the third commit takes it over, so that the
thread stops there and leaves its first key in an older slot.  The id of the key is handed out
while the commit is still found. -/
theorem reachable_lost : ¬ ∀ (disabled : Bool) (schedule : List Nat) (s s' : Session System)
    (h : ContextHash) (id : HashId), MovesIf (fun _ _ => True) (.start disabled schedule) s →
      Resolves h id s → MovesIf (fun s m => Resolves h id (s.move m)) s s' →
      System.Intact s.world.repo s'.world.repo id := by
  intro intact
  have start : MovesIf (fun _ _ => True) (.start false []) threeCommits :=
    AlongMoves.run (by decide +kernel)
  have still : MovesIf (fun s m => Resolves lastHash lastId (s.move m)) threeCommits
      (threeCommits.afterMoves sixCycles) := AlongMoves.run (by decide +kernel)
  have kept := intact false [] _ _ _ _ start (by decide +kernel) still
  -- The commit, its root, the directory and the key.
  have refers : ∀ p ∈ [(lastId, tenthId), (tenthId, sixthId), (sixthId, System.firstId)],
      ∃ value ∈ threeCommits.world.repo.store.hashes.getValue p.1, p.2 ∈ value.references := by
    decide +kernel
  have step : ∀ {i j}, (i, j) ∈ [(lastId, tenthId), (tenthId, sixthId), (sixthId, System.firstId)] →
      System.Refers threeCommits.world.repo i j := by
    intro i j mem
    obtain ⟨value, here, ref⟩ := refers _ mem
    exact ⟨value, here, ref⟩
  have root := Relation.ReflTransGen.single (step (List.mem_cons_self))
  have directory := root.tail (step (List.mem_cons_of_mem _ List.mem_cons_self))
  have key := directory.tail
    (step (List.mem_cons_of_mem _ (List.mem_cons_of_mem _ List.mem_cons_self)))
  obtain ⟨hash, value, _, _, there⟩ := kept.entry System.firstId key
  have lost : (threeCommits.afterMoves sixCycles).world.repo.store.hashes.getValue System.firstId =
      none := by decide +kernel
  rw [lost] at there
  cases there

end Sample

end NodeFuzzer
