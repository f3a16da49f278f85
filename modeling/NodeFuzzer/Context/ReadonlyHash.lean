import NodeFuzzer.Context.Committing
import NodeFuzzer.Context.ReadonlyIpc

/-!
# Hashing over the read-only backend

The ids of a read-only runner are indices into a vector that is thrown away after each
`hash` and `commit`.  Nodes keep them.  A node that got its id before the entries were
cleared has one that leads nowhere, or to the hash of another entry.

As long as no such node is hashed, every call gives the hash it would give over a backend
that was just connected, to the same nodes without these ids.
-/

namespace NodeFuzzer

open KeyValueStoreBackend StoreView

namespace ReadonlyIpcBackend

/-! ## The store -/

theorem getHash_known {s : ReadonlyIpcBackend} {id : HashId} (known : id.val < HashId.READONLY) :
    getHash id s = s.client.getHash id := by
  show lookup _ _ _ _ = _
  rw [lookup, HashId.getReadonlyId_of_lt known]

theorem getValue_known {s : ReadonlyIpcBackend} {id : HashId} (known : id.val < HashId.READONLY) :
    getValue id s = s.client.getValue id := by
  show lookup _ _ _ _ = _
  rw [lookup, HashId.getReadonlyId_of_lt known]

/-- Nothing is stored under the ids of this process. -/
theorem Inv.known_of_value {s : ReadonlyIpcBackend} (inv : Inv s) {id : HashId} {v : Serialized}
    (hv : getValue id s = .ok (some v)) : id.val < HashId.READONLY := by
  by_contra hbit
  change lookup _ _ _ _ = _ at hv
  unfold lookup at hv
  split at hv
  · cases hv
  next j _ =>
    rw [HashValueStore.getValue_none_of_length_le (by rw [inv.values]; exact Nat.zero_le _)] at hv
    cases hv
  next hread =>
    rw [HashId.getReadonlyId, dif_pos (Nat.not_lt.mp hbit)] at hread
    split at hread <;> cases hread

/-- A store without ids of its own. -/
theorem closed_forget {s s' : ReadonlyIpcBackend} (closed : Closed s) (client : s'.client = s.client)
    (empty : s'.hashes.hashes = []) : Closed s' where
  references := by
    intro id value r live hvalue hr
    have known : id.val < HashId.READONLY := by
      rcases live with known | ⟨j, _, hj⟩
      · exact known
      · rw [empty] at hj
        exact absurd hj (Nat.not_lt_zero _)
    rw [getValue_known known, client, ← getValue_known known] at hvalue
    obtain ⟨_, hknown⟩ := closed.references (Or.inl known) hvalue hr
    exact ⟨Or.inl hknown, hknown⟩
  contexts := by
    intro h id hid
    have hid' : getContextHash h s = .ok (some id) := by
      show s.client.getContextHashId h = _
      rw [← client]
      exact hid
    obtain ⟨_, known⟩ := closed.contexts hid'
    exact ⟨Or.inl known, known⟩

instance : CommitStore ReadonlyIpcBackend where
  Writable := fun _ _ => True
  write := fun _ _ inv closed _ => ⟨inv, closed, fun _ live => ⟨live, rfl⟩⟩
  put := fun _ _ _ inv closed _ _ => ⟨inv, closed, fun _ live => ⟨live, rfl⟩⟩
  applied := fun _ _ inv closed => ⟨inv, closed, fun _ live => ⟨live, rfl⟩⟩
  clear := by
    intro s inv closed
    refine ⟨⟨inv.freeIds, rfl, Nat.zero_le _⟩, closed_forget closed rfl rfl, ?_⟩
    intro id known _
    refine ⟨Or.inl known, ?_⟩
    rw [getHash_known known, getHash_known known]

/-- The other process knows nothing of the ids that are made here. -/
structure Consistent (client : IpcContextClient) : Prop where
  references : ∀ {id value r}, client.getValue id = .ok (some value) → r ∈ value.references →
    r.val < HashId.READONLY
  contexts : ∀ {h id}, client.getContextHashId h = .ok (some id) → id.val < HashId.READONLY

theorem closed_tryConnect {client : IpcContextClient} (consistent : Consistent client) :
    Closed (tryConnect client) where
  references := by
    intro id value r live hvalue hr
    rw [getValue_known ((inv_tryConnect client).known_of_value hvalue)] at hvalue
    have known := consistent.references hvalue hr
    exact ⟨Or.inl known, known⟩
  contexts := by
    intro h id hid
    have known := consistent.contexts hid
    exact ⟨Or.inl known, known⟩

/-! ## The same nodes over a backend that was just connected -/

/-- A node of the other process as it comes from there, one of this process without id. -/
def refreshNode (node : Node) : Node :=
  match node.entryHash with
  | some id => if id.val < HashId.READONLY then storedNode (node.nodeKind, id)
      else ⟨node.nodeKind, false, none, node.entry⟩
  | none => ⟨node.nodeKind, false, none, node.entry⟩

/-- The nodes with a backend that was just connected. -/
def refresh (w : World ReadonlyIpcBackend) : World ReadonlyIpcBackend :=
  ⟨⟨w.heap.next, fun a => refreshNode (w.heap.node a)⟩, tryConnect w.repo.client⟩

section Refresh

variable {w : World ReadonlyIpcBackend}

theorem refresh_known {a : Addr} {id : HashId} (hid : (w.heap.node a).entryHash = some id)
    (known : id.val < HashId.READONLY) :
    (refresh w).heap.node a = storedNode ((w.heap.node a).nodeKind, id) := by
  show refreshNode _ = _
  simp only [refreshNode, hid, if_pos known]

theorem refresh_unknown {a : Addr} (unknown : Unknown w a) :
    (refresh w).heap.node a = ⟨(w.heap.node a).nodeKind, false, none, (w.heap.node a).entry⟩ := by
  show refreshNode _ = _
  cases hid : (w.heap.node a).entryHash with
  | none => simp only [refreshNode, hid]
  | some id =>
      have bit : ¬ id.val < HashId.READONLY := unknown id hid
      simp only [refreshNode, hid, if_neg bit]

/-- A node has an id of the other process, or none that stays. -/
theorem known_or_unknown (w : World ReadonlyIpcBackend) (a : Addr) :
    (∃ id, (w.heap.node a).entryHash = some id ∧ id.val < HashId.READONLY) ∨ Unknown w a := by
  by_cases known : ∃ id, (w.heap.node a).entryHash = some id ∧ id.val < HashId.READONLY
  · exact Or.inl known
  · exact Or.inr fun id hid hknown => known ⟨id, hid, hknown⟩

theorem refresh_nodeKind (a : Addr) :
    ((refresh w).heap.node a).nodeKind = (w.heap.node a).nodeKind := by
  rcases known_or_unknown w a with ⟨id, hid, known⟩ | unknown
  · rw [refresh_known hid known]
    rfl
  · rw [refresh_unknown unknown]

theorem unknown_refresh {a : Addr} : Unknown (refresh w) a ↔ Unknown w a := by
  constructor
  · intro unknown id hid known
    refine unknown id ?_ known
    rw [refresh_known hid known]
    rfl
  · intro unknown id hid
    rw [refresh_unknown unknown] at hid
    cases hid

theorem refresh_sound (sound : Sound w) : Sound (refresh w) where
  inv := inv_tryConnect _
  closed := closed_forget sound.closed rfl rfl
  nodes := by
    intro a
    have old := sound.nodes a
    rcases known_or_unknown w a with ⟨id, hid, known⟩ | unknown
    · constructor
      all_goals rw [refresh_known hid known]
      · exact fun _ hknown => Or.inl hknown
      · exact nofun
      · exact nofun
      · exact nofun
      · exact nofun
      · exact fun _ _ => ⟨rfl, id, rfl, known⟩
      · exact nofun
      · exact nofun
    · constructor
      all_goals rw [refresh_unknown unknown]
      · exact nofun
      · exact fun _ hentry hp => old.older unknown hentry hp
      · exact fun _ => old.notCommit unknown
      · exact fun none => absurd rfl none
      · exact fun hentry => old.within hentry
      · intro ha hentry
        obtain ⟨_, id, hid, known⟩ := old.stored ha hentry
        exact absurd known (unknown id hid)
      · exact fun _ hentry hp => old.older unknown hentry hp
      · exact fun _ => old.notCommit unknown

theorem refresh_contextOk {c : TezedgeContext} (ok : ContextOk w c) : ContextOk (refresh w) c :=
  ⟨ok.within, fun hid => ⟨Or.inl (ok.parent hid).2, (ok.parent hid).2⟩⟩

variable [Digest]

/-- Nodes have the hash they had: it never was about the ids made here. -/
theorem hashOf_refresh {a : Addr} {h : EntryHash} : HashOf (refresh w) a h ↔ HashOf w a h := by
  constructor
  · refine HashOf.transfer (fun b => (refresh_nodeKind b).symm) ?_ ?_
      fun b _ unknown => Or.inl (unknown_refresh.mp unknown)
    · intro b unknown
      rw [refresh_unknown (unknown_refresh.mp unknown)]
    · intro b id k hid known hash
      rcases known_or_unknown w b with ⟨j, hj, hknown⟩ | unknown
      · rw [refresh_known hj hknown] at hid
        cases hid
        rw [getHash_known hknown] at hash
        exact .known hj hknown (by rw [getHash_known hknown]; exact hash)
      · rw [refresh_unknown unknown] at hid
        cases hid
  · refine HashOf.transfer refresh_nodeKind ?_ ?_
      fun b _ unknown => Or.inl (unknown_refresh.mpr unknown)
    · intro b unknown
      rw [refresh_unknown unknown]
    · intro b id k hid known hash
      refine .known (by rw [refresh_known hid known]; rfl) known ?_
      rw [getHash_known known] at hash ⊢
      exact hash

theorem treeHashOf_refresh {tree : Tree} {h : EntryHash} :
    TreeHashOf (refresh w) tree h ↔ TreeHashOf w tree h := by
  have same : ∀ a, HashOf (refresh w) a = HashOf w a := fun a => funext fun k =>
    propext hashOf_refresh
  have hbindings : bindings (refresh w) tree.entries = bindings w tree.entries := by
    apply List.map_congr_left
    intro p _
    rw [label, label, hashAt, hashAt, same, refresh_nodeKind]
  simp only [TreeHashOf, Hashed, hbindings, same]

theorem contextHashOf_refresh {c : TezedgeContext} {author message : String} {date : Int64}
    {h : ContextHash} (ok : ContextOk w c) :
    ContextHashOf (refresh w) c author message date h ↔
      ContextHashOf w c author message date h := by
  have parentHash : ∀ p, ParentHash (refresh w) c.parentCommitHash p ↔
      ParentHash w c.parentCommitHash p := by
    intro p
    cases hparent : c.parentCommitHash with
    | none =>
        constructor
        · rintro ⟨⟩
          exact .none
        · rintro ⟨⟩
          exact .none
    | some id =>
        have known := (ok.parent hparent).2
        constructor
        · rintro (_ | hash)
          rw [getHash_known known] at hash
          exact .some (by rw [getHash_known known]; exact hash)
        · rintro (_ | hash)
          rw [getHash_known known] at hash
          exact .some (by rw [getHash_known known]; exact hash)
  simp only [ContextHashOf, CommitHashOf, treeHashOf_refresh, parentHash]

theorem refresh_region : Region (fun _ => True) (refresh w) where
  closed := fun _ _ _ _ => trivial
  held := by
    intro a id _ hid notKnown
    rcases known_or_unknown w a with ⟨j, hj, known⟩ | unknown
    · rw [refresh_known hj known] at hid
      cases hid
      exact absurd known notKnown
    · rw [refresh_unknown unknown] at hid
      cases hid

end Refresh

/-! ## Hashing contexts -/

section Hashing

variable [Digest]

/-- A call for a hash of a context. -/
inductive Hashes (i : Nat) : Op → Prop
  | root : Hashes i (.getMerkleRoot i)
  | hash (author message : String) (date : Int64) : Hashes i (.hash i author message date)
  | commit (author message : String) (date : Int64) : Hashes i (.commit i author message date)

/-- The reply is the hash that was asked for. -/
inductive Answers (w : World ReadonlyIpcBackend) (c : TezedgeContext) : Op → Reply → Prop
  | root {i : Nat} {h : EntryHash} (hash : TreeHashOf w c.tree.root h) :
      Answers w c (.getMerkleRoot i) (.root h)
  | hash {i : Nat} {author message : String} {date : Int64} {h : ContextHash}
      (hash : ContextHashOf w c author message date h) :
      Answers w c (.hash i author message date) (.contextHash h)
  | commit {i : Nat} {author message : String} {date : Int64} {h : ContextHash}
      (hash : ContextHashOf w c author message date h) :
      Answers w c (.commit i author message date) (.contextHash h)

theorem Answers.unique {w : World ReadonlyIpcBackend} {c : TezedgeContext} {op : Op} {r r' : Reply}
    (answers : Answers w c op r) (answers' : Answers w c op r') : r = r' := by
  cases answers with
  | root hash =>
      cases answers' with
      | root hash' => rw [hash.2.unique hash'.2]
  | hash hash =>
      cases answers' with
      | hash hash' => rw [hash.unique hash']
  | commit hash =>
      cases answers' with
      | commit hash' => rw [hash.unique hash']

theorem answers_refresh {w : World ReadonlyIpcBackend} {c : TezedgeContext} {op : Op} {r : Reply}
    (ok : ContextOk w c) (answers : Answers (refresh w) c op r) : Answers w c op r := by
  cases answers with
  | root hash => exact .root (treeHashOf_refresh.mp hash)
  | hash hash => exact .hash ((contextHashOf_refresh ok).mp hash)
  | commit hash => exact .commit ((contextHashOf_refresh ok).mp hash)

/-- A call for a hash answers with it when the ids of the nodes below the root can be
relied on. -/
theorem hashes_spec {R : Addr → Prop} {s : Session ReadonlyIpcBackend} {i : Nat} {op : Op}
    (hashes : Hashes i op) (sound : SoundSession s) (region : Region R s.world)
    (mem : ∀ c ∈ s.contexts[i]?, ∀ p ∈ c.tree.root.entries, R p.2) :
    Exec.wp (Session.perform op)
      (fun reply s' => s.contexts[i]? = none ∧ reply = .absent ∧ s' = s ∨
        ∃ c, s.contexts[i]? = some c ∧ Answers s.world c op reply ∧
          Later s.world s'.world ∧ s' = { s with world := s'.world } ∧
          ((∃ h, reply = .contextHash h) ∨ Step R s.world s'.world))
      (fun s' => ∃ c, s.contexts[i]? = some c ∧ Step R s.world s'.world ∧
        s' = { s with world := s'.world } ∧
        (Exhausted s'.world.repo ∨ ¬ ∃ reply, Answers s.world c op reply)) s := by
  have ok : ∀ {c : TezedgeContext}, s.contexts[i]? = some c → ContextOk s.world c :=
    fun hc => sound.contexts _ (List.mem_of_getElem? hc)
  cases hashes with
  | root =>
      refine wp_withContext (fun none => Or.inl ⟨none, rfl, rfl⟩) fun c hc => ?_
      rw [Exec.wp_bind, wp_onWorld]
      refine Exec.wp_mono (getMerkleRoot_spec sound.sound.good region (ok hc).within
        (mem c hc)) ?_ ?_
      · intro h w' spec
        exact Or.inr ⟨c, hc, .root spec.2, Later.ofStep sound.sound spec.1, rfl, Or.inr spec.1⟩
      · intro w' spec
        refine ⟨c, hc, spec.1, rfl, spec.2.imp_right ?_⟩
        rintro none ⟨reply, answers⟩
        cases answers with
        | root hash => exact none ⟨_, hash⟩
  | hash author message date =>
      refine wp_withContext (fun none => Or.inl ⟨none, rfl, rfl⟩) fun c hc => ?_
      rw [Exec.wp_bind, wp_onWorld]
      refine Exec.wp_mono (hash_spec sound.sound region (ok hc) (mem c hc)) ?_ ?_
      · intro h w' spec
        exact Or.inr ⟨c, hc, .hash spec.2, spec.1, rfl, Or.inl ⟨h, rfl⟩⟩
      · intro w' spec
        refine ⟨c, hc, spec.1, rfl, spec.2.imp_right ?_⟩
        rintro none ⟨reply, answers⟩
        cases answers with
        | hash hash => exact none ⟨_, hash⟩
  | commit author message date =>
      refine wp_withContext (fun none => Or.inl ⟨none, rfl, rfl⟩) fun c hc => ?_
      rw [Exec.wp_bind, wp_onWorld]
      refine Exec.wp_mono (commit_spec sound.sound region (ok hc) (mem c hc)
        fun _ => trivial) ?_ ?_
      · intro h w' spec
        exact Or.inr ⟨c, hc, .commit spec.2, spec.1, rfl, Or.inl ⟨h, rfl⟩⟩
      · intro w' spec
        refine ⟨c, hc, spec.1, rfl, spec.2.imp_right ?_⟩
        rintro none ⟨reply, answers⟩
        cases answers with
        | commit hash => exact none ⟨_, hash⟩

end Hashing

/-! ## Whole runs -/

/-- A process, and the nodes that had an id of this process when the entries were last
cleared. -/
structure Tracked where
  session : Session ReadonlyIpcBackend
  stale : Addr → Bool

/-- The node has an id of this process. -/
def hasReadonlyId (heap : Heap) (a : Addr) : Bool :=
  (heap.node a).entryHash.any fun id => decide (HashId.READONLY ≤ id.val)

/-- A node below the root of a tree, through entries in memory. -/
inductive Below (heap : Heap) (root : Tree) : Addr → Prop
  | child {p : KeyFragment × Addr} (mem : p ∈ root.entries) : Below heap root p.2
  | deeper {a : Addr} {tree : Tree} {p : KeyFragment × Addr} (above : Below heap root a)
      (entry : (heap.node a).entry = some (.tree tree)) (mem : p ∈ tree.entries) :
      Below heap root p.2

/-- A process that was just connected. -/
def Tracked.start (client : IpcContextClient) : Tracked :=
  ⟨⟨⟨.empty, tryConnect client⟩, [], []⟩, fun _ => false⟩

/-- A call for a hash is about nodes only that got no id before the entries were last
cleared. -/
def Untouched (t : Tracked) : Op → Prop
  | .getMerkleRoot i | .hash i .. | .commit i .. => ∀ c ∈ t.session.contexts[i]?, ∀ a,
      Below t.session.world.heap c.tree.root a → t.stale a = false
  | _ => True

section Runs

variable [Digest]

/-- Do what is asked.  The calls that return a hash of a commit clear the entries. -/
def Tracked.perform (op : Op) (t : Tracked) : Tracked :=
  match Session.perform op t.session with
  | (.ok (.contextHash _), s) => ⟨s, hasReadonlyId s.world.heap⟩
  | (_, s) => ⟨s, t.stale⟩

/-- The state after some calls. -/
def Tracked.after (t : Tracked) (ops : List Op) : Tracked := ops.foldl (fun t op => t.perform op) t

/-- A run in which each call for a hash meets the condition where it is made. -/
def TrackedRuns : Tracked → Tracked → Prop :=
  Relation.ReflTransGen fun t t' => ∃ op, Untouched t op ∧ t.perform op = t'

/-- The ids that nodes got since the entries were cleared are those of their hashes. -/
structure FreshTracked (t : Tracked) : Prop where
  sound : SoundSession t.session
  held : ∀ {a id}, a < t.session.world.heap.next → t.stale a = false →
    (t.session.world.heap.node a).entryHash = some id → ¬ Known ReadonlyIpcBackend id →
    Live t.session.world.repo id ∧
      ∃ h, HashOf t.session.world a h ∧ getHash id t.session.world.repo = .ok (some h)

omit [Digest] in
theorem Below.within {w : World ReadonlyIpcBackend} {root : Tree} {a : Addr}
    (below : Below w.heap root a) (sound : Sound w) (within : Within w.heap root) :
    a < w.heap.next := by
  cases below with
  | child mem => exact within _ mem
  | deeper above entry mem => exact (sound.nodes _).within entry _ mem

variable {t t' : Tracked}

/-- The nodes below a root that a call may hash. -/
theorem FreshTracked.region (fresh : FreshTracked t) {root : Tree}
    (within : Within t.session.world.heap root)
    (untouched : ∀ a, Below t.session.world.heap root a → t.stale a = false) :
    Region (Below t.session.world.heap root) t.session.world where
  closed := fun above _ hentry hp => .deeper above hentry hp
  held := fun below hid notKnown =>
    fresh.held (below.within fresh.sound.sound within) (untouched _ below) hid notKnown

/-- Nodes that are made have no id, and nodes that are loaded one of the other process. -/
theorem FreshTracked.edited (fresh : FreshTracked t) {s : Session ReadonlyIpcBackend}
    (edited : Edited t.session s) : FreshTracked ⟨s, t.stale⟩ where
  sound := edited.soundSession fresh.sound
  held := by
    intro a id lt notStale hid notKnown
    have grows := edited.grows
    have later := Later.ofGrows fresh.sound.sound grows
    rcases grows.origin a lt with ⟨old, same⟩ | ⟨_, _, noId⟩ | ⟨hasId, _, _, live, parent, mem⟩ |
      ⟨hasId, _, _, _, found, _, _⟩
    · rw [same] at hid
      obtain ⟨live, h, hash, get⟩ := fresh.held old notStale hid notKnown
      refine ⟨by rw [grows.repo]; exact live, h, (later.hashOf a old h).mpr hash, ?_⟩
      rw [grows.repo]
      exact get
    · rw [noId] at hid
      cases hid
    · rw [hasId] at hid
      cases hid
      exact absurd (fresh.sound.sound.closed.references live parent mem).2 notKnown
    · rw [hasId] at hid
      cases hid
      exact absurd (fresh.sound.sound.inv.known_of_value found) notKnown

/-- Nodes that get an id while nothing is cleared get that of their hash. -/
theorem FreshTracked.step (fresh : FreshTracked t) {R : Addr → Prop}
    {w : World ReadonlyIpcBackend} (step : Step R t.session.world w) :
    FreshTracked ⟨{ t.session with world := w }, t.stale⟩ where
  sound := (Later.ofStep fresh.sound.sound step).soundSession fresh.sound
  held := by
    intro a id lt notStale hid notKnown
    by_cases mem : R a
    · exact step.region.held mem hid notKnown
    · have lt' : a < t.session.world.heap.next := by
        rw [← step.next]
        exact lt
      have hid' : (t.session.world.heap.node a).entryHash = some id := by
        rw [← step.outside a mem]
        exact hid
      obtain ⟨live, h, hash, get⟩ := fresh.held lt' notStale hid' notKnown
      obtain ⟨live', hash', _⟩ := step.keeps.old id live
      exact ⟨live', h, (step.hashOf a h).mpr hash, hash'.trans get⟩

/-- When the entries are cleared, no node is left with an id that counts. -/
theorem FreshTracked.clear {s : Session ReadonlyIpcBackend} (sound : SoundSession s) :
    FreshTracked ⟨s, hasReadonlyId s.world.heap⟩ where
  sound := sound
  held := by
    intro a id _ notStale hid notKnown
    change hasReadonlyId s.world.heap a = false at notStale
    change (s.world.heap.node a).entryHash = some id at hid
    have bit : HashId.READONLY ≤ id.val := Nat.not_lt.mp notKnown
    simp [hasReadonlyId, hid, bit] at notStale

theorem freshTracked_start {client : IpcContextClient} (consistent : Consistent client) :
    FreshTracked (.start client) where
  sound := by
    refine ⟨⟨inv_tryConnect client, closed_tryConnect consistent, ?_⟩,
      fun _ h => absurd h List.not_mem_nil, fun _ h => absurd h List.not_mem_nil⟩
    intro a
    refine ⟨nofun, nofun, nofun, nofun, nofun, ?_, nofun, nofun⟩
    exact fun ha => absurd ha (Nat.not_lt_zero _)
  held := fun ha => absurd ha (Nat.not_lt_zero _)

/-- What `Tracked.perform` leads to. -/
theorem Tracked.perform_rule {P : Tracked → Prop} {op : Op}
    (h : Exec.wp (Session.perform op)
      (fun reply s => ((∃ k, reply = .contextHash k) → P ⟨s, hasReadonlyId s.world.heap⟩) ∧
        ((¬ ∃ k, reply = .contextHash k) → P ⟨s, t.stale⟩))
      (fun s => P ⟨s, t.stale⟩) t.session) : P (t.perform op) := by
  unfold Exec.wp at h
  unfold Tracked.perform
  revert h
  rcases Session.perform op t.session with ⟨reply | e | _, s⟩
  · intro h
    by_cases commit : ∃ k, reply = .contextHash k
    · obtain ⟨k, rfl⟩ := commit
      exact h.1 ⟨k, rfl⟩
    · have kept := h.2 commit
      cases reply with
      | contextHash k => exact absurd ⟨k, rfl⟩ commit
      | _ => exact kept
  · exact fun h => h
  · exact fun h => h

/-- A call for a hash that meets the condition. -/
theorem FreshTracked.hashes (fresh : FreshTracked t) {i : Nat} {op : Op} (hashes : Hashes i op)
    (untouched : Untouched t op) : ∃ R, Region R t.session.world ∧
      ∀ c ∈ t.session.contexts[i]?, ∀ p ∈ c.tree.root.entries, R p.2 := by
  have stale : ∀ c ∈ t.session.contexts[i]?, ∀ a,
      Below t.session.world.heap c.tree.root a → t.stale a = false := by
    cases hashes <;> exact untouched
  cases hc : t.session.contexts[i]? with
  | none => exact ⟨fun _ => False, ⟨by simp, by simp⟩, by simp⟩
  | some c =>
      have within := (fresh.sound.contexts c (List.mem_of_getElem? hc)).within
      refine ⟨Below t.session.world.heap c.tree.root, fresh.region within (stale c hc), ?_⟩
      rintro _ ⟨⟩ p hp
      exact .child hp

theorem FreshTracked.perform (fresh : FreshTracked t) {op : Op} (untouched : Untouched t op) :
    FreshTracked (t.perform op) := by
  have edits : op.Edits → FreshTracked (t.perform op) := by
    intro edits
    refine Tracked.perform_rule (Exec.wp_mono (perform_edited fresh.sound edits) ?_ ?_)
    · exact fun _ s edited => ⟨fun _ => .clear (edited.soundSession fresh.sound),
        fun _ => fresh.edited edited⟩
    · exact fun s edited => fresh.edited edited
  have hash : ∀ i, Hashes i op → FreshTracked (t.perform op) := by
    intro i hashes
    obtain ⟨R, region, mem⟩ := fresh.hashes hashes untouched
    refine Tracked.perform_rule (Exec.wp_mono (hashes_spec hashes fresh.sound region mem) ?_ ?_)
    · rintro reply s (⟨_, rfl, rfl⟩ | ⟨c, _, _, later, hs, step⟩)
      · exact ⟨nofun, fun _ => fresh⟩
      · constructor
        · intro _
          rw [hs]
          exact .clear (later.soundSession fresh.sound)
        · intro noHash
          rw [hs]
          exact fresh.step (step.resolve_left noHash)
    · rintro s ⟨c, _, step, hs, _⟩
      rw [hs]
      exact fresh.step step
  cases op with
  | getMerkleRoot i => exact hash i .root
  | hash i author message date => exact hash i (.hash author message date)
  | commit i author message date => exact hash i (.commit author message date)
  | cycleStarted => exact fresh
  | _ => exact edits trivial

theorem FreshTracked.runs (fresh : FreshTracked t) (runs : TrackedRuns t t') : FreshTracked t' := by
  induction runs with
  | refl => exact fresh
  | tail _ step ih =>
      obtain ⟨op, untouched, rfl⟩ := step
      exact ih.perform untouched

/-- In a run whose calls all meet the condition, a call returns the hash that it returns
over a backend that was just connected, as long as ids can be handed out. -/
theorem readonly_hash_stable {client : IpcContextClient} (consistent : Consistent client)
    (runs : TrackedRuns (.start client) t) {i : Nat} {op : Op} (hashes : Hashes i op)
    (untouched : Untouched t op) {reply : Reply}
    (refreshed : (Session.perform op { t.session with world := refresh t.session.world }).1 =
      .ok reply) :
    (Session.perform op t.session).1 = .ok reply ∨
      Exhausted (Session.perform op t.session).2.world.repo := by
  have fresh := (freshTracked_start consistent).runs runs
  obtain ⟨R, region, mem⟩ := fresh.hashes hashes untouched
  have sound : SoundSession { t.session with world := refresh t.session.world } :=
    ⟨refresh_sound fresh.sound.sound, fun c hc => refresh_contextOk (fresh.sound.contexts c hc),
      fresh.sound.trees⟩
  have old := hashes_spec hashes fresh.sound region mem
  have new := hashes_spec hashes sound refresh_region fun _ _ _ _ => trivial
  have answered : t.session.contexts[i]? = none ∧ reply = .absent ∨
      ∃ c, t.session.contexts[i]? = some c ∧ Answers t.session.world c op reply := by
    rcases Exec.wp_ok new (Prod.ext refreshed rfl) with ⟨none, absent, _⟩ | ⟨c, hc, answers, _⟩
    · exact Or.inl ⟨none, absent⟩
    · exact Or.inr ⟨c, hc,
        answers_refresh (fresh.sound.contexts c (List.mem_of_getElem? hc)) answers⟩
  rcases Exec.wp_outcome old with ⟨reply', hreply, ⟨none, rfl, _⟩ | ⟨c, hc, answers, _⟩⟩ |
    ⟨c, hc, _, _, failed⟩
  · rcases answered with ⟨_, rfl⟩ | ⟨c, hc, _⟩
    · exact Or.inl hreply
    · rw [none] at hc
      cases hc
  · rcases answered with ⟨none, _⟩ | ⟨c', hc', answers'⟩
    · rw [none] at hc
      cases hc
    · rw [hc] at hc'
      cases hc'
      rw [answers'.unique answers]
      exact Or.inl hreply
  · rcases answered with ⟨none, _⟩ | ⟨c', hc', answers'⟩
    · rw [none] at hc
      cases hc
    · rw [hc] at hc'
      cases hc'
      exact Or.inr (failed.resolve_right fun unanswered => unanswered ⟨reply, answers'⟩)

end Runs

theorem trackedRuns_cons [Digest] {t t' : Tracked} (op : Op) (untouched : Untouched t op)
    (rest : TrackedRuns (t.perform op) t') : TrackedRuns t t' :=
  .head ⟨op, untouched, rfl⟩ rest

/-- The nodes below a root are among those that a list is closed under. -/
theorem Below.mem_of_closed {heap : Heap} {root : Tree} {nodes : List Addr} {a : Addr}
    (below : Below heap root a) (top : ∀ p ∈ root.entries, p.2 ∈ nodes)
    (closed : ∀ b ∈ nodes, ∀ p ∈ ((heap.node b).entry.elim [] Entry.children), p ∈ nodes) :
    a ∈ nodes := by
  induction below with
  | child mem => exact top _ mem
  | @deeper b tree p above entry mem ih =>
      refine closed b ih p.2 ?_
      rw [entry]
      exact List.mem_map_of_mem mem

section Sample

local instance readonlyDigest : Digest := sampleDigest

/-- A process that only reads, with nothing in the store of the other one. -/
def emptyClient : IpcContextClient :=
  ⟨fun _ => .ok none, fun _ => .ok none, fun _ => .ok false, fun _ => .ok none⟩

/-- Two contexts share a node and are hashed, then another one is made. -/
def sharedThenNew : Tracked :=
  (Tracked.start emptyClient).after [.new, .add 0 ["a"] [1], .getMerkleRoot 1, .add 1 ["b"] [2],
    .hash 2 "author" "message" 1, .add 0 ["c", "d"] [3]]

theorem readonly_hash_stable_sharedThenNew :
    let op : Op := .hash 3 "author" "message" 1
    ∃ reply, (Session.perform op
        { sharedThenNew.session with world := refresh sharedThenNew.session.world }).1 = .ok reply ∧
      (Session.perform op sharedThenNew.session).1 = .ok reply := by
  intro op
  have consistent : Consistent emptyClient := ⟨nofun, nofun⟩
  have runs : TrackedRuns (.start emptyClient) sharedThenNew := by
    refine trackedRuns_cons .new trivial ?_
    refine trackedRuns_cons (.add 0 ["a"] [1]) trivial ?_
    refine trackedRuns_cons (.getMerkleRoot 1) (fun _ _ _ _ => rfl) ?_
    refine trackedRuns_cons (.add 1 ["b"] [2]) trivial ?_
    refine trackedRuns_cons (.hash 2 "author" "message" 1) (fun _ _ _ _ => rfl) ?_
    exact trackedRuns_cons (.add 0 ["c", "d"] [3]) trivial .refl
  have untouched : Untouched sharedThenNew op := by
    intro c hc a below
    -- the nodes of the last context were made after the entries were cleared
    have top : ∀ c ∈ sharedThenNew.session.contexts[3]?, ∀ p ∈ c.tree.root.entries,
        p.2 ∈ [2, 3] := by
      decide +kernel
    have mem := below.mem_of_closed (top c hc) (by decide +kernel)
    have notStale : ∀ b ∈ [2, 3], sharedThenNew.stale b = false := by
      decide +kernel
    exact notStale a mem
  obtain ⟨reply, refreshed⟩ : ∃ reply, (Session.perform op
      { sharedThenNew.session with world := refresh sharedThenNew.session.world }).1 = .ok reply :=
    Outcome.exists_of_isOk (by decide +kernel)
  have notFull : (Session.perform op sharedThenNew.session).2.world.repo.hashes.hashes.length ≠
      MAX_HASHES := by
    decide +kernel
  refine ⟨reply, refreshed, ?_⟩
  exact (readonly_hash_stable consistent runs (.hash "author" "message" 1) untouched
    refreshed).resolve_right notFull

/-- A context can be hashed once.  After that its nodes have ids that lead nowhere, and,
when the root of another context was hashed since, to the hash of a node of that one. -/
theorem hash_makes_ids_dangle :
    let s := (Tracked.start emptyClient).session.after
      [.new, .add 0 ["a"] [1], .add 0 ["b"] [2], .hash 1 "author" "message" 1]
    let s' := s.after [.getMerkleRoot 2]
    ((Session.perform (.hash 1 "author" "message" 1) { s with world := refresh s.world }).1.isOk ∧
      ¬ (Session.perform (.hash 1 "author" "message" 1) s).1.isOk) ∧
    (Session.perform (.getMerkleRoot 1) { s' with world := refresh s'.world }).1.isOk ∧
      (Session.perform (.getMerkleRoot 1) s').1.isOk ∧
      (Session.perform (.getMerkleRoot 1) { s' with world := refresh s'.world }).1 ≠
        (Session.perform (.getMerkleRoot 1) s').1 := by
  decide +kernel

end Sample

end ReadonlyIpcBackend

end NodeFuzzer
