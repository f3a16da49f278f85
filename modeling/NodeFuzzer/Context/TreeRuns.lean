import NodeFuzzer.Context.Releasing
import NodeFuzzer.Context.Steady

/-!
# Runs of a process that keeps trees

A process that also lists directories, and takes trees out of contexts and puts them back.
What `SteadyStore` says of nodes and store holds after every such run, as long as no cycle
start frees an id that something keeps.
-/

namespace NodeFuzzer

open KeyValueStoreBackend StoreView

section Empty

variable {S : Type} [KeyValueStoreBackend S] {w : World S}

/-- When `find_raw_tree` returns an empty directory, the path can be followed and does not
lead to a directory with something in it. -/
theorem findRawTree_empty {root : Tree} (tight : Tight w.heap) (within : Within w.heap root)
    (path : ContextKey) :
    Exec.wp (TezedgeIndex.findRawTree root path)
      (fun tree _ => tree.isEmpty = true →
        treeAnswer w root path ≠ .directory false ∧ treeAnswer w root path ≠ .broken)
      (fun _ => True) w := by
  induction path generalizing root w with
  | nil =>
      intro empty
      rw [treeAnswer_nil, empty]
      exact ⟨by simp, by simp⟩
  | cons first rest ih =>
      rw [TezedgeIndex.findRawTree]
      cases ha : root.get first with
      | none =>
          intro _
          rw [treeAnswer_none w ha]
          exact ⟨by simp, by simp⟩
      | some a =>
          show Exec.wp (TezedgeIndex.nodeEntry a >>= _) _ _ w
          rw [Exec.wp_bind, treeAnswer_some w ha]
          refine Exec.wp_mono (nodeEntry_reads tight (within.get ha)) ?_ fun _ _ => trivial
          intro entry w' h
          obtain ⟨reads, within', same⟩ := h
          rw [← same]
          cases entry with
          | tree tree => exact ih reads.tight (within' rfl)
          | blob value =>
              intro _
              cases rest <;> constructor <;> intro h <;> cases h
          | commit commit => trivial

/-- The source of `copy` is a directory with something in it, or cannot be read. -/
def WorkingTree.Copies (w : World S) (root : Tree) (fromKey : ContextKey) : Prop :=
  treeAnswer w root fromKey = .directory false ∨ treeAnswer w root fromKey = .broken

instance (w : World S) (root : Tree) (fromKey : ContextKey) :
    Decidable (WorkingTree.Copies w root fromKey) := inferInstanceAs (Decidable (_ ∨ _))

end Empty

/-- What a process may do with trees: the calls of a `Session`, `list`, and turning the
tree of a context into one that can be added, and back. -/
inductive TreeOp where
  | op (op : Op)
  | list (context : Nat) (offset length : Option Nat) (key : ContextKey)
  | tree (context : Nat)
  | withTree (context tree : Nat)
deriving DecidableEq

namespace Session

variable {S : Type} [KeyValueStoreBackend S] [Digest]

/-- Keep trees. -/
def keepTrees (trees : List WorkingTree) : Exec (Session S) ContextError Reply := do
  Exec.modify fun s => { s with trees := s.trees ++ trees }
  pure .done

/-- Do what is asked. -/
def performTree : TreeOp → Exec (Session S) ContextError Reply
  | .op op => perform op
  | .list context offset length key => withContext context fun c => do
      let children ← onWorld (c.list offset length key)
      keepTrees (children.map Prod.snd)
  | .tree context => withContext context fun c => keepTree c.tree
  | .withTree context tree => withContext context fun c => do
      let trees ← Exec.gets trees
      match trees[tree]? with
      | none => pure .absent
      | some t => keepContext (c.withTree t)

end Session

/-- The call puts no empty directory in place: the source of a `copy` has something in
it, and so has a directory that is added.  At the root either may be empty. -/
def TreeOp.Fills {S : Type} [KeyValueStoreBackend S] (s : Session S) : TreeOp → Prop
  | .op .cycleStarted => False
  | .op (.copy i fromKey toKey) => toKey ≠ [] → ∀ c ∈ s.contexts[i]?,
      WorkingTree.Copies s.world c.tree.root fromKey
  | .op (.addTree _ key t) => key ≠ [] → s.trees[t]? ≠ some (.tree .empty)
  | _ => True

/-- The call frees no id that something keeps. -/
def TreeOp.Releases [Digest] (s : Session System) (op : TreeOp) : Prop :=
  op = .op .cycleStarted → s.Released

/-- The call puts only directories of `P` below others, and frees no id that something keeps. -/
def TreeOp.Puts [Digest] (P : Tree → Prop) (s : Session System) (op : TreeOp) : Prop :=
  op.Fills s ∨ (∀ tree, P tree) ∧ op.Releases s

section Runs

variable [Digest] {s s' : Session System}

/-- A run of the process in which each call meets `P` where it is made. -/
def TreeRuns (P : Session System → TreeOp → Prop) : Session System → Session System → Prop :=
  Relation.ReflTransGen fun s s' => ∃ op, P s op ∧ (Session.performTree op s).2 = s'

/-- The state after some calls. -/
def Session.afterTree (s : Session System) (ops : List TreeOp) : Session System :=
  ops.foldl (fun s op => (performTree op s).2) s

theorem treeRuns_cons {P : Session System → TreeOp → Prop} (op : TreeOp) (allowed : P s op)
    (run : TreeRuns P (Session.performTree op s).2 s') : TreeRuns P s s' :=
  .head ⟨op, allowed, rfl⟩ run

/-- A run that puts no empty directory in place ends no cycle. -/
theorem TreeRuns.quiet (run : TreeRuns (fun s op => op.Fills s) s s') :
    TreeRuns (fun _ op => op ≠ .op .cycleStarted) s s' := by
  refine Relation.ReflTransGen.mono ?_ _ _ run
  intro s s' step
  obtain ⟨op, fills, run⟩ := step
  refine ⟨op, ?_, run⟩
  rintro rfl
  exact fills

/-- What holds of a process whose nodes and store keep `I`. -/
structure SteadySession (I : World System → Prop) (s : Session System) : Prop where
  sound : SoundSession s
  holds : I s.world

variable {I : World System → Prop}

/-- Keeping a tree or a context that is there changes nothing else. -/
theorem SteadySession.keep {contexts : List TezedgeContext} {trees : List WorkingTree}
    (session : SteadySession I s) (ok : ∀ c ∈ contexts, ContextOk s.world c)
    (within : ∀ t ∈ trees, Within s.world.heap t.root) :
    SteadySession I { s with
      contexts := s.contexts ++ contexts
      trees := s.trees ++ trees } where
  sound := by
    refine ⟨session.sound.sound, ?_, ?_⟩
    · intro c hc
      exact (List.mem_append.mp hc).elim (session.sound.contexts c) (ok c)
    · intro t ht
      exact (List.mem_append.mp ht).elim (session.sound.trees t) (within t)
  holds := session.holds

theorem SteadySession.within (session : SteadySession I s) {t : WorkingTree}
    (reached : t ∈ s.trees ∨ ∃ c ∈ s.contexts, c.tree = t) : Within s.world.heap t.root := by
  rcases reached with mem | ⟨c, hc, rfl⟩
  · exact session.sound.trees t mem
  · exact (session.sound.contexts c hc).within

omit [Digest] in
/-- A call on nodes and store, and keeping what it returned. -/
theorem wp_keep {α : Type} {x : Call System ContextError α}
    {f : α → Exec (Session System) ContextError Reply}
    (spec : Exec.wp x (fun _ => I) I s.world)
    (keep : ∀ a s', I s'.world →
      Exec.wp (f a) (fun _ s'' => I s''.world) (fun s'' => I s''.world) s') :
    Exec.wp (Session.onWorld x >>= f) (fun _ s' => I s'.world) (fun s' => I s'.world) s := by
  rw [Exec.wp_bind, wp_onWorld]
  exact Exec.wp_mono spec (fun a _ holds => keep a _ holds) fun _ holds => holds

omit [Digest] in
/-- A new tree for a context. -/
theorem wp_keepTree {c : TezedgeContext} {x : Call System MerkleError WorkingTree}
    (spec : Exec.wp x (fun _ => I) I s.world) :
    Exec.wp (do
        let c ← Session.onWorld (do
          let tree ← Exec.mapErr ContextError.merkleStorageError x
          pure (c.withTree tree))
        Session.keepContext c) (fun _ s' => I s'.world) (fun s' => I s'.world) s := by
  refine wp_keep ?_ fun _ _ holds => holds
  rw [Exec.wp_bind, Exec.wp_mapErr]
  exact Exec.wp_mono spec (fun _ _ holds => holds) fun _ holds => holds

omit [Digest] in
/-- A question to a context. -/
theorem wp_keepAsk {α : Type} {x : Call System MerkleError α} {reply : α → Reply}
    (spec : Exec.wp x (fun _ => I) I s.world) :
    Exec.wp (do
        let a ← Session.onWorld (Exec.mapErr ContextError.merkleStorageError x)
        pure (reply a)) (fun _ s' => I s'.world) (fun s' => I s'.world) s := by
  refine wp_keep ?_ fun _ _ holds => holds
  rw [Exec.wp_mapErr]
  exact spec

namespace SteadyStore

variable {P : Tree → Prop}

/-- What `copy` puts in place. -/
theorem copied (steady : SteadyStore P I) {i : Nat} {c : TezedgeContext} {fromKey toKey : ContextKey}
    (session : SteadySession I s) (hc : s.contexts[i]? = some c)
    (puts : TreeOp.Puts P s (.op (.copy i fromKey toKey))) :
    Exec.wp (c.tree.copy fromKey toKey) (fun _ => I) I s.world := by
  have ok := session.sound.contexts c (List.mem_of_getElem? hc)
  have sound := session.sound.sound
  rcases puts with fills | ⟨all, _⟩
  · have tight : Tight s.world.heap := fun _ hentry => (sound.nodes _).within hentry
    refine steady.copy sound session.holds ok.within (findRawTree_empty tight ok.within fromKey) ?_
    intro hto tree empty
    refine steady.nonempty ?_
    by_contra hempty
    obtain ⟨notFull, notBroken⟩ := empty (by simpa using hempty)
    exact (fills hto c hc).elim notFull notBroken
  · refine steady.copy (Q := fun _ => True) sound session.holds ok.within ?_ fun _ tree _ => all tree
    exact Exec.wp_mono (findRawTree_spec sound ok.within fromKey) (fun _ _ _ => trivial)
      fun _ _ => trivial

/-- What `add_tree` puts in place. -/
theorem added (steady : SteadyStore P I) {i t : Nat} {c : TezedgeContext} {tree : WorkingTree}
    {key : ContextKey} (session : SteadySession I s) (hc : s.contexts[i]? = some c)
    (ht : s.trees[t]? = some tree) (puts : TreeOp.Puts P s (.op (.addTree i key t))) :
    Exec.wp (c.tree.addTree key tree) (fun _ => I) I s.world := by
  refine steady.addTree session.sound.sound session.holds
    (session.sound.contexts c (List.mem_of_getElem? hc)).within
    (session.sound.trees tree (List.mem_of_getElem? ht)) ?_
  intro hkey root hroot
  rcases puts with fills | ⟨all, _⟩
  · refine steady.nonempty ?_
    by_contra hempty
    have hempty : root.isEmpty = true := by simpa using hempty
    have here : root = .empty := OrdMap.ext_entries (List.isEmpty_iff.mp hempty)
    exact fills hkey (by rw [ht, hroot, here])
  · exact all root

theorem perform {op : Op} (steady : SteadyStore P I) (session : SteadySession I s)
    (puts : TreeOp.Puts P s (.op op)) :
    Exec.wp (Session.perform op) (fun _ s' => I s'.world) (fun s' => I s'.world) s := by
  have sound := session.sound.sound
  have holds := session.holds
  have ok : ∀ {i : Nat} {c : TezedgeContext}, s.contexts[i]? = some c → ContextOk s.world c :=
    fun hc => session.sound.contexts _ (List.mem_of_getElem? hc)
  cases op with
  | new => exact holds
  | checkout contextHash =>
      refine wp_keep (steady.checkout sound holds contextHash) ?_
      intro found s' holds'
      cases found <;> exact holds'
  | add i key value =>
      exact wp_withContext (fun _ => holds) fun c hc =>
        wp_keepTree (steady.add sound holds (ok hc).within key value)
  | delete i key =>
      exact wp_withContext (fun _ => holds) fun c hc =>
        wp_keepTree (steady.delete sound holds (ok hc).within key)
  | copy i fromKey toKey =>
      refine wp_withContext (fun _ => holds) fun c hc => wp_keep ?_ ?_
      · rw [TezedgeContext.copy, Exec.wp_bind, Exec.wp_mapErr]
        exact steady.copied session hc puts
      · intro found s' holds'
        cases found <;> exact holds'
  | addTree i key t =>
      refine wp_withContext (fun _ => holds) fun c hc => ?_
      rw [Exec.wp_bind, Exec.wp_gets]
      cases ht : s.trees[t]? with
      | none => exact holds
      | some tree => exact wp_keepTree (steady.added session hc ht puts)
  | findTree i key =>
      refine wp_withContext (fun _ => holds) fun c hc => wp_keep ?_ ?_
      · rw [TezedgeContext.findTree, Exec.wp_mapErr]
        exact steady.findTree sound holds (ok hc).within key
      · intro found s' holds'
        cases found <;> exact holds'
  | find i key =>
      exact wp_withContext (fun _ => holds) fun c hc =>
        wp_keepAsk (steady.find sound holds (ok hc).within key)
  | mem i key =>
      exact wp_withContext (fun _ => holds) fun c hc =>
        wp_keepAsk (steady.mem sound holds (ok hc).within key)
  | memTree i key =>
      exact wp_withContext (fun _ => holds) fun c hc =>
        wp_keepAsk (steady.memTree sound holds (ok hc).within key)
  | getMerkleRoot i =>
      exact wp_withContext (fun _ => holds) fun c hc =>
        wp_keep (steady.getMerkleRoot sound holds (ok hc)) fun _ _ holds' => holds'
  | hash i author message date =>
      exact wp_withContext (fun _ => holds) fun c hc =>
        wp_keep (steady.hash sound holds (ok hc)) fun _ _ holds' => holds'
  | commit i author message date =>
      exact wp_withContext (fun _ => holds) fun c hc =>
        wp_keep (steady.commit sound holds (ok hc)) fun _ _ holds' => holds'
  | cycleStarted => exact steady.cycle holds

theorem performTree {op : TreeOp} (steady : SteadyStore P I) (session : SteadySession I s)
    (puts : op.Puts P s) : SteadySession I (Session.performTree op s).2 := by
  have context : ∀ {i : Nat} {c : TezedgeContext}, s.contexts[i]? = some c → ContextOk s.world c :=
    fun hc => session.sound.contexts _ (List.mem_of_getElem? hc)
  cases op with
  | op op =>
      refine ⟨soundSession_perform session.sound ?_, Exec.wp_state (steady.perform session puts)⟩
      rintro rfl
      exact puts.elim False.elim fun h => h.2 rfl
  | list i offset length key =>
      refine Exec.wp_state (wp_withContext (fun _ => session) fun c hc => ?_)
      rw [Exec.wp_bind, wp_onWorld, TezedgeContext.list, Exec.wp_mapErr]
      refine Exec.wp_mono (steady.list session.sound.sound session.holds
        (context hc).within offset length key) ?_ ?_
      · intro children w h
        obtain ⟨⟨grows, holds⟩, within⟩ := h
        have later := SessionLater.ofEdited session.sound (Edited.ofWorld grows)
        have moved : SteadySession I { s with world := w } := ⟨later.sound, holds⟩
        have kept := @SteadySession.keep _ _ _ [] (children.map Prod.snd) moved (by simp) ?_
        · rw [List.append_nil] at kept
          exact kept
        · intro t ht
          obtain ⟨q, hq, rfl⟩ := List.mem_map.mp ht
          exact within q hq
      · intro w h
        obtain ⟨grows, holds⟩ := h
        exact ⟨(SessionLater.ofEdited session.sound (Edited.ofWorld grows)).sound, holds⟩
  | tree i =>
      refine Exec.wp_state (wp_withContext (fun _ => session) fun c hc => ?_)
      have kept := @SteadySession.keep _ _ _ [] [c.tree] session (by simp) ?_
      · rw [List.append_nil] at kept
        exact kept
      · intro t ht
        rw [List.mem_singleton.mp ht]
        exact (context hc).within
  | withTree i t =>
      refine Exec.wp_state (wp_withContext (fun _ => session) fun c hc => ?_)
      rw [Exec.wp_bind, Exec.wp_gets]
      cases ht : s.trees[t]? with
      | none => exact session
      | some tree =>
          have kept := @SteadySession.keep _ _ _ [c.withTree tree] [] session ?_ (by simp)
          · rw [List.append_nil] at kept
            exact kept
          · intro c' hc'
            rw [List.mem_singleton.mp hc']
            exact ⟨session.sound.trees tree (List.mem_of_getElem? ht), (context hc).parent⟩

theorem run {Q : Session System → TreeOp → Prop} (steady : SteadyStore P I)
    (puts : ∀ s op, Q s op → op.Puts P s) (run : TreeRuns Q s s') (session : SteadySession I s) :
    SteadySession I s' := by
  induction run with
  | refl => exact session
  | tail _ step ih =>
      obtain ⟨op, allowed, rfl⟩ := step
      exact steady.performTree ih (puts _ _ allowed)

end SteadyStore

end Runs

end NodeFuzzer
