import NodeFuzzer.Context.PrefixQueries
import NodeFuzzer.Context.Sound

/-!
# Walks over the store

A query by prefix starts from the id of a commit, so that all nodes it meets were made by
it and are not loaded before it comes to them.  What it returns is therefore a function of
the store alone: `storedValues` and `storedDump` are the walks on serialized entries, and
the calls end as they do, up to the kind of an error (`Mirrors`).

Each call changes the nodes it was given and makes new ones; all others are as before
(`Frame`).
-/

namespace NodeFuzzer

open KeyValueStoreBackend
open TezedgeIndex (keyToString stringToKey)

variable {S : Type}

/-! ## Nodes that are not loaded -/

/-- Only own nodes were changed, and new ones made. -/
structure Frame (own : List Addr) (w w' : World S) : Prop where
  repo : w'.repo = w.repo
  next : w.heap.next ≤ w'.heap.next
  node : ∀ a, a < w.heap.next → a ∉ own → w'.heap.node a = w.heap.node a

namespace Frame

variable {w w' w'' : World S} {own own' : List Addr}

theorem refl (own : List Addr) (w : World S) : Frame own w w :=
  ⟨rfl, le_refl _, fun _ _ _ => rfl⟩

/-- One call after another; what is the own of the second was made by the first or is the
own of both. -/
theorem trans (first : Frame own w w') (second : Frame own' w' w'')
    (new : ∀ a ∈ own', a ∈ own ∨ w.heap.next ≤ a) : Frame own w w'' where
  repo := second.repo.trans first.repo
  next := first.next.trans second.next
  node := by
    intro a ha hown
    rw [second.node a (Nat.lt_of_lt_of_le ha first.next), first.node a ha hown]
    intro mem
    rcases new a mem with h | h
    · exact hown h
    · exact absurd ha (Nat.not_lt.mpr h)

theorem mono (frame : Frame own w w') (le : ∀ a ∈ own, a ∈ own') : Frame own' w w' :=
  ⟨frame.repo, frame.next, fun a ha hown => frame.node a ha fun mem => hown (le a mem)⟩

end Frame

/-- The children of a directory as they come out of the store. -/
inductive Unloaded (w : World S) :
    List (KeyFragment × Addr) → List (KeyFragment × NodeKind × HashId) → Prop
  | nil : Unloaded w [] []
  | cons {p : KeyFragment × Addr} {q : KeyFragment × NodeKind × HashId}
      {l : List (KeyFragment × Addr)} {l' : List (KeyFragment × NodeKind × HashId)}
      (name : p.1 = q.1) (lt : p.2 < w.heap.next) (node : w.heap.node p.2 = storedNode q.2)
      (apart : ∀ r ∈ l, r.2 ≠ p.2) (rest : Unloaded w l l') : Unloaded w (p :: l) (q :: l')

namespace Unloaded

variable {w w' : World S} {l : List (KeyFragment × Addr)}
  {l' : List (KeyFragment × NodeKind × HashId)}

/-- They stay so while they are not touched. -/
theorem frame {own : List Addr} (unloaded : Unloaded w l l') (frame : Frame own w w')
    (apart : ∀ p ∈ l, p.2 ∉ own) : Unloaded w' l l' := by
  induction unloaded with
  | nil => exact .nil
  | @cons p q l l' name lt node distinct _ ih =>
      have later := ih fun r hr => apart r (List.mem_cons_of_mem p hr)
      refine .cons name (Nat.lt_of_lt_of_le lt frame.next) ?_ distinct later
      rw [frame.node p.2 lt (apart p List.mem_cons_self), node]

/-- Children that were made one after the other. -/
theorem mapIdx {start : Nat} (made : ∀ i q, l'[i]? = some q →
    start + i < w.heap.next ∧ w.heap.node (start + i) = storedNode q.2) :
    Unloaded w (l'.mapIdx fun i q => (q.1, start + i)) l' := by
  induction l' generalizing start with
  | nil => exact .nil
  | cons q l' ih =>
      obtain ⟨lt, node⟩ := made 0 q rfl
      have shift : (l'.mapIdx fun i q => (q.1, start + (i + 1))) =
          l'.mapIdx fun i q => (q.1, start + 1 + i) := by
        congr 1
        funext i q
        rw [Nat.add_assoc, Nat.add_comm 1 i]
      rw [List.mapIdx_cons, shift]
      refine .cons rfl lt node ?_ (ih ?_)
      · intro r hr heq
        rw [List.mem_mapIdx] at hr
        obtain ⟨i, _, rfl⟩ := hr
        change start + 1 + i = start + 0 at heq
        exact absurd heq (by omega)
      · intro i r hr
        have here := made (i + 1) r hr
        rw [Nat.add_assoc, Nat.add_comm 1 i]
        exact here

theorem find_none (unloaded : Unloaded w l l') {name : KeyFragment} :
    OrdMap.find name l = none ↔ OrdMap.find name l' = none := by
  induction unloaded with
  | nil => simp [OrdMap.find]
  | @cons p q l l' hname lt node apart _ ih =>
      simp only [OrdMap.find, hname]
      split
      · simp
      · exact ih

theorem find_some (unloaded : Unloaded w l l') {name : KeyFragment} {a : Addr}
    (h : OrdMap.find name l = some a) : ∃ q, OrdMap.find name l' = some q ∧
      a < w.heap.next ∧ w.heap.node a = storedNode q := by
  induction unloaded with
  | nil => cases h
  | @cons p q l l' hname lt node apart _ ih =>
      simp only [OrdMap.find, hname] at h ⊢
      split at h
      next =>
        cases h
        exact ⟨q.2, by simp [*], lt, node⟩
      next hne =>
        rw [if_neg hne]
        exact ih h

end Unloaded

/-- An entry in memory that has just come out of the store; its children were made at
`base` or later. -/
inductive Loaded (base : Addr) (w : World S) : Entry → Serialized → Prop
  | blob (v : ContextValue) : Loaded base w (.blob v) (.blob v)
  | commit (c : Commit) : Loaded base w (.commit c) (.commit c)
  | tree {tree : Tree} {entries : OrdMap KeyFragment (NodeKind × HashId)}
      (unloaded : Unloaded w tree.entries entries.entries)
      (new : ∀ p ∈ tree.entries, base ≤ p.2) : Loaded base w (.tree tree) (.tree entries)

theorem Loaded.new {base : Addr} {w : World S} {entry : Entry} {value : Serialized}
    (loaded : Loaded base w entry value) {a : Addr} (ha : a ∈ entry.children) : base ≤ a := by
  cases loaded with
  | blob => cases ha
  | commit => cases ha
  | tree unloaded new =>
      obtain ⟨p, hp, rfl⟩ := List.mem_map.mp ha
      exact new p hp

/-- What `bincode::deserialize` makes of an entry. -/
theorem deserialize_loaded {ε : Type} (error : ε) (w : World S) {value : Serialized}
    (valid : value ≠ .invalid) : ∃ entry w', deserialize error value w = (.ok entry, w') ∧
      Frame [] w w' ∧ Loaded w.heap.next w' entry value := by
  cases value with
  | invalid => exact absurd rfl valid
  | blob v => exact ⟨.blob v, w, rfl, .refl [] w, .blob v⟩
  | commit c => exact ⟨.commit c, w, rfl, .refl [] w, .commit c⟩
  | tree entries =>
      refine ⟨_, _, rfl, ⟨rfl, Nat.le_add_right _ _, ?_⟩, .tree (Unloaded.mapIdx ?_) ?_⟩
      · intro a ha _
        exact Heap.allocAll_node_of_lt ha _
      · intro i q hi
        refine ⟨?_, loadHeap_node hi⟩
        obtain ⟨hlt, _⟩ := List.getElem?_eq_some_iff.mp hi
        show _ < (w.heap.allocAll _).next
        rw [Heap.allocAll_next, List.length_map]
        exact Nat.add_lt_add_left hlt _
      · intro p hp
        obtain ⟨i, _, _, ha⟩ := OrdMap.mem_mapPosition.mp hp
        rw [ha]
        exact Nat.le_add_right _ _

/-! ## Calls that end as an outcome -/

/-- The call ends as `o`, up to the kind of an error, and only own nodes and new ones were
changed. -/
def Mirrors {ε α : Type} (own : List Addr) (x : Call S ε α) (w : World S) (o : Outcome Unit α) :
    Prop := (x w).1.mapErr (fun _ => ()) = o ∧ Frame own w (x w).2

namespace Mirrors

variable {ε α β : Type} {own own' : List Addr} {x : Call S ε α} {w w' : World S}

theorem ok {a : α} (run : x w = (.ok a, w')) (frame : Frame own w w') :
    Mirrors own x w (.ok a) := by
  rw [Mirrors, run]
  exact ⟨rfl, frame⟩

theorem err {e : ε} (run : x w = (.err e, w)) : Mirrors own x w (.err ()) := by
  rw [Mirrors, run]
  exact ⟨rfl, .refl own w⟩

/-- A call that starts with one that returned. -/
theorem after {f : α → Call S ε β} {a : α} {o : Outcome Unit β} (run : x w = (.ok a, w'))
    (frame : Frame own w w') (rest : Mirrors own' (f a) w' o)
    (new : ∀ b ∈ own', b ∈ own ∨ w.heap.next ≤ b) : Mirrors own (x >>= f) w o := by
  rw [Mirrors, Exec.bind_ok run]
  exact ⟨rest.1, frame.trans rest.2 new⟩

theorem bind {f : α → Call S ε β} {o : Outcome Unit α} {g : α → Outcome Unit β}
    (first : Mirrors own x w o) (rest : ∀ a w', Frame own w w' → Mirrors own (f a) w' (g a)) :
    Mirrors own (x >>= f) w (o.bind g) := by
  obtain ⟨rfl, frame⟩ := first
  cases hx : x w with
  | mk outcome w' =>
      rw [hx] at frame
      cases outcome with
      | ok a => exact Mirrors.after hx frame (rest a w' frame) fun _ h => .inl h
      | err e =>
          simp only [Mirrors, Bind.bind, Exec.bind, hx]
          exact ⟨rfl, frame⟩
      | panic =>
          simp only [Mirrors, Bind.bind, Exec.bind, hx]
          exact ⟨rfl, frame⟩

theorem map {f : α → β} {o : Outcome Unit α} (first : Mirrors own x w o) :
    Mirrors own (x >>= fun a => pure (f a)) w (o.map f) :=
  first.bind fun _ w' _ => .ok rfl (.refl own w')

/-- A loop over children that were not loaded.  Each round leaves the nodes of the others
alone. -/
theorem mapEach {l : List (KeyFragment × Addr)} {l' : List (KeyFragment × NodeKind × HashId)}
    {f : KeyFragment × Addr → Call S ε β} {g : KeyFragment × NodeKind × HashId → Outcome Unit β}
    (unloaded : Unloaded w l l') (step : ∀ p q w₁, w₁.repo = w.repo → p.1 = q.1 →
      p.2 < w₁.heap.next → w₁.heap.node p.2 = storedNode q.2 → Mirrors [p.2] (f p) w₁ (g q)) :
    Mirrors (l.map Prod.snd) (Exec.mapEach f l) w (Outcome.each g l') := by
  induction l generalizing w l' with
  | nil =>
      cases unloaded
      exact .ok rfl (.refl _ w)
  | cons p l ih =>
      cases unloaded with
      | @cons _ q _ l' name lt node apart rest =>
          obtain ⟨hout, frame⟩ := step p q w rfl name lt node
          have own : Frame ((p :: l).map Prod.snd) w (f p w).2 :=
            frame.mono fun a h => by simp [List.mem_singleton.mp h]
          rw [Exec.mapEach, Outcome.each, ← hout]
          cases hx : f p w with
          | mk outcome w' =>
              rw [hx] at frame own
              cases outcome with
              | ok b =>
                  -- The others were not touched.
                  have others : Unloaded w' l l' := rest.frame frame fun r hr h =>
                    apart r hr (List.mem_singleton.mp h)
                  have later := ih others fun p q w₁ repo => step p q w₁ (repo.trans frame.repo)
                  exact Mirrors.after hx own (later.map (f := fun bs => b :: bs)) fun a h =>
                    .inl (List.mem_cons_of_mem _ h)
              | err e =>
                  simp only [Mirrors, Bind.bind, Exec.bind, hx]
                  exact ⟨rfl, own⟩
              | panic =>
                  simp only [Mirrors, Bind.bind, Exec.bind, hx]
                  exact ⟨rfl, own⟩

end Mirrors

variable [KeyValueStoreBackend S]

/-! ## Entries of the store -/

/-- The entry with an id, when it is there and can be decoded. -/
def storedEntry (repo : S) (id : HashId) : Option Serialized :=
  match getValue id repo with
  | .ok (some value) => if value = .invalid then none else some value
  | _ => none

theorem storedEntry_eq_some {repo : S} {id : HashId} {value : Serialized} :
    storedEntry repo id = some value ↔
      getValue id repo = .ok (some value) ∧ value ≠ .invalid := by
  unfold storedEntry
  split
  next found hfound =>
    rw [hfound]
    by_cases hinvalid : found = .invalid
    · simp only [if_pos hinvalid, Except.ok.injEq, Option.some.injEq]
      constructor
      · exact nofun
      · rintro ⟨rfl, hne⟩
        exact absurd hinvalid hne
    · simp only [if_neg hinvalid, Except.ok.injEq, Option.some.injEq]
      constructor
      · rintro rfl
        exact ⟨rfl, hinvalid⟩
      · exact And.left
  next hother =>
    constructor
    · exact nofun
    · intro h
      exact absurd h.1 (hother value)

/-- A call that fetches the entry with an id. -/
structure Fetches (w : World S) (id : HashId) (x : Call S MerkleError Entry) : Prop where
  missing : storedEntry w.repo id = none → ∃ e, x w = (.err e, w)
  there : ∀ value, storedEntry w.repo id = some value → ∃ entry w', x w = (.ok entry, w') ∧
    Frame [] w w' ∧ Loaded w.heap.next w' entry value

/-- The calls that fetch an entry differ in their errors only. -/
theorem fetches_of {w : World S} {id : HashId} {x : Call S MerkleError Entry} {ε : Type}
    (error : ε) (failed : ∀ e, getValue id w.repo = .error e → ∃ e', x w = (.err e', w))
    (absent : getValue id w.repo = .ok none → ∃ e', x w = (.err e', w))
    (found : ∀ value, getValue id w.repo = .ok (some value) →
      ∀ r w', deserialize error value w = (r, w') →
        (∀ entry, r = .ok entry → x w = (.ok entry, w')) ∧
          (∀ e, r = .err e → ∃ e', x w = (.err e', w'))) : Fetches w id x := by
  constructor
  · intro h
    cases hvalue : getValue id w.repo with
    | error e => exact failed e hvalue
    | ok value =>
        cases value with
        | none => exact absent hvalue
        | some value =>
            have invalid : value = .invalid := by
              by_contra hne
              rw [storedEntry_eq_some.mpr ⟨hvalue, hne⟩] at h
              cases h
            subst invalid
            exact (found _ hvalue _ _ rfl).2 _ rfl
  · intro value h
    obtain ⟨hvalue, valid⟩ := storedEntry_eq_some.mp h
    obtain ⟨entry, w', run, frame, loaded⟩ := deserialize_loaded error w valid
    exact ⟨entry, w', (found _ hvalue _ _ run).1 entry rfl, frame, loaded⟩

theorem getEntryFromHashId_fetches (w : World S) (id : HashId) :
    Fetches w id (WorkingTree.getEntryFromHashId id) := by
  have ask : Exec.mapErr MerkleError.dbError (Call.askRepo (getValue id)) w =
      (match getValue id w.repo with
        | .ok value => .ok value
        | .error e => .err (.dbError e), w) := by
    simp only [Exec.mapErr, Call.askRepo, Exec.query]
    cases getValue id w.repo <;> rfl
  refine fetches_of MerkleError.serializationError ?_ ?_ ?_
  · intro e h
    rw [h] at ask
    exact ⟨.dbError e, by simp only [WorkingTree.getEntryFromHashId, Bind.bind, Exec.bind, ask]⟩
  · intro h
    rw [h] at ask
    rw [WorkingTree.getEntryFromHashId, Exec.bind_ok ask]
    exact ⟨_, rfl⟩
  · intro value h r w' run
    rw [h] at ask
    rw [WorkingTree.getEntryFromHashId, Exec.bind_ok ask]
    dsimp only
    rw [run]
    exact ⟨fun entry hr => by rw [hr], fun e hr => ⟨e, by rw [hr]⟩⟩

theorem getEntry_fetches (w : World S) (id : HashId) :
    Fetches w id (TezedgeIndex.getEntry id) := by
  refine fetches_of DBError.serializationError ?_ ?_ ?_
  · intro e h
    refine ⟨.dbError e, ?_⟩
    simp only [TezedgeIndex.getEntry, TezedgeIndex.findEntry, Bind.bind, Exec.bind, Exec.mapErr,
      Call.askRepo, Exec.query, h]
  · intro h
    refine ⟨.entryNotFound id, ?_⟩
    simp only [TezedgeIndex.getEntry, TezedgeIndex.findEntry, Bind.bind, Exec.bind, Exec.mapErr,
      Call.askRepo, Exec.query, h, Pure.pure, Exec.pure, Exec.orFail, Exec.fail]
  · intro value h r w' run
    constructor
    · rintro entry rfl
      simp only [TezedgeIndex.getEntry, TezedgeIndex.findEntry, Bind.bind, Exec.bind, Exec.mapErr,
        Call.askRepo, Exec.query, h, run, Pure.pure, Exec.pure, Exec.orFail]
    · rintro e rfl
      refine ⟨.dbError e, ?_⟩
      simp only [TezedgeIndex.getEntry, TezedgeIndex.findEntry, Bind.bind, Exec.bind, Exec.mapErr,
        Call.askRepo, Exec.query, h, run]

/-- A node that is not loaded is loaded. -/
theorem nodeEntry_fetches {w : World S} {a : Addr} {q : NodeKind × HashId}
    (lt : a < w.heap.next) (node : w.heap.node a = storedNode q) :
    (storedEntry w.repo q.2 = none → ∃ e, TezedgeIndex.nodeEntry a w = (.err e, w)) ∧
    ∀ value, storedEntry w.repo q.2 = some value → ∃ entry w',
      TezedgeIndex.nodeEntry a w = (.ok entry, w') ∧ Frame [a] w w' ∧
        Loaded w.heap.next w' entry value := by
  have fetches := getEntry_fetches w q.2
  have unloaded : TezedgeIndex.nodeEntry a w = (do
      let entry ← TezedgeIndex.getEntry q.2
      Call.updateNode a fun node => { node with entry := some entry }
      pure entry) w := by
    simp only [TezedgeIndex.nodeEntry, Call.readNode, Exec.gets, Bind.bind, Exec.bind, node,
      storedNode, Exec.orFail, Pure.pure, Exec.pure]
  rw [unloaded]
  constructor
  · intro h
    obtain ⟨e, run⟩ := fetches.missing h
    exact ⟨e, by simp only [Bind.bind, Exec.bind, run]⟩
  · intro value h
    obtain ⟨entry, w', run, frame, loaded⟩ := fetches.there value h
    rw [Exec.bind_ok run]
    have put : Frame [a] w' { w' with
        heap := w'.heap.set a { w'.heap.node a with entry := some entry } } := by
      refine ⟨rfl, le_refl _, ?_⟩
      intro b _ hown
      have hne : b ≠ a := fun heq => hown (List.mem_singleton.mpr heq)
      exact Heap.set_node_of_ne hne _
    have own : Frame [a] w w' := frame.mono fun _ h => absurd h List.not_mem_nil
    refine ⟨entry, _, rfl, own.trans put fun _ h => .inl h, ?_⟩
    cases loaded with
    | blob v => exact .blob v
    | commit c => exact .commit c
    | tree unloaded new =>
        refine .tree (unloaded.frame put ?_) new
        intro p hp mem
        have old := new p hp
        rw [List.mem_singleton.mp mem] at old
        exact absurd lt (Nat.not_lt.mpr old)

/-! ## The walks on the store -/

/-- What `get_key_values_from_tree_recursively` lists.  An entry that is missing below a
directory is passed over; the root of a commit must be there. -/
def storedValues (repo : S) :
    Nat → ContextKey → Serialized → Outcome Unit (List (ContextKey × ContextValue))
  | 0, _, _ => .panic
  | _ + 1, key, .blob v => .ok [(stringToKey (keyToString key), v)]
  | fuel + 1, key, .tree entries =>
      (Outcome.each (fun p =>
        match storedEntry repo p.2.2 with
        | none => .ok []
        | some value => storedValues repo fuel (key ++ [p.1]) value) entries.entries).map List.flatten
  | fuel + 1, key, .commit commit =>
      match storedEntry repo commit.rootHash with
      | none => .err ()
      | some value => storedValues repo fuel key value
  | _ + 1, _, .invalid => .err ()

/-- What `get_context_recursive` makes. -/
def storedDump (repo : S) : Nat → Option Nat → Serialized → Outcome Unit StringTreeEntry
  | 0, _, _ => .panic
  | fuel + 1, depth, value =>
      if depth = some 0 then .ok .null
      else match value with
      | .blob v => .ok (.blob (hexEncode v))
      | .tree entries =>
          (Outcome.each (fun p =>
            match storedEntry repo p.2.2 with
            | none => .err ()
            | some value => (storedDump repo fuel (depth.map (· - 1)) value).map fun t => (p.1, t))
            entries.entries).map .ofEntries
      | _ => .err ()

/-- What `find_raw_tree` finds; `none` is an error. -/
def storedFind (repo : S) : OrdMap KeyFragment (NodeKind × HashId) → ContextKey →
    Option (OrdMap KeyFragment (NodeKind × HashId))
  | entries, [] => some entries
  | entries, first :: rest =>
      match entries.get first with
      | none => some .empty
      | some p =>
          match storedEntry repo p.2 with
          | some (.tree below) => storedFind repo below rest
          | some (.blob _) => some .empty
          | _ => none

/-- The directory at a prefix below the root of a commit. -/
def storedUnder (repo : S) (root : HashId) (keyPrefix : ContextKey) :
    Option (OrdMap KeyFragment (NodeKind × HashId)) :=
  match storedEntry repo root with
  | some (.tree entries) => storedFind repo entries keyPrefix
  | _ => none

/-- The first level of a query: each child must be there. -/
def storedLevel {α : Type} (repo : S) (f : KeyFragment → Serialized → Outcome Unit α)
    (entries : OrdMap KeyFragment (NodeKind × HashId)) : Outcome Unit (List α) :=
  Outcome.each (fun p =>
    match storedEntry repo p.2.2 with
    | none => .err ()
    | some value => f p.1 value) entries.entries

/-- What both queries for key values return. -/
def storedListing (repo : S) (fuel : Nat) (root : HashId) (keyPrefix : ContextKey) :
    Outcome Unit (Option (List (ContextKey × ContextValue))) :=
  match storedUnder repo root keyPrefix with
  | none => .err ()
  | some entries =>
      (storedLevel repo (fun name value => storedValues repo fuel (keyPrefix ++ [name]) value)
        entries).map fun l => if l.flatten.isEmpty then none else some l.flatten

/-- What the query for a tree returns. -/
def storedTree (repo : S) (fuel : Nat) (root : HashId) (keyPrefix : ContextKey)
    (depth : Option Nat) : Outcome Unit StringTreeEntry :=
  if depth = some 0 then .ok .null
  else match storedUnder repo root keyPrefix with
  | none => .err ()
  | some entries =>
      (storedLevel repo (fun name value =>
        (storedDump repo fuel (depth.map (· - 1)) value).map fun t => (name, t)) entries).map
          .ofEntries

theorem keyToString_concat {key : ContextKey} (hkey : key ≠ []) (name : KeyFragment) :
    keyToString (key ++ [name]) = keyToString key ++ "/" ++ name := by
  rw [keyToString, String.intercalate_append_of_ne_nil hkey (by simp), String.intercalate_singleton,
    keyToString]

/-- Both copies of the listing list what is in the store. -/
theorem keyValuesFromTree_mirrors {getEntry : HashId → Call S MerkleError Entry}
    (fetch : ∀ w id, Fetches w id (getEntry id)) (fuel : Nat) {base : Addr} {w : World S}
    {key : ContextKey} {entry : Entry} {value : Serialized} (hkey : key ≠ [])
    (loaded : Loaded base w entry value) :
    Mirrors entry.children (keyValuesFromTree getEntry fuel (keyToString key) entry) w
      (storedValues w.repo fuel key value) := by
  induction fuel generalizing base w key entry value with
  | zero => exact ⟨rfl, .refl _ w⟩
  | succ fuel ih =>
      cases loaded with
      | blob v => exact .ok rfl (.refl _ w)
      | commit c =>
          simp only [keyValuesFromTree, storedValues]
          cases hroot : storedEntry w.repo c.rootHash with
          | none =>
              obtain ⟨e, run⟩ := (fetch w c.rootHash).missing hroot
              exact .err (e := e) (by simp only [Bind.bind, Exec.bind, run])
          | some value =>
              obtain ⟨entry, w', run, frame, loaded⟩ := (fetch w c.rootHash).there value hroot
              have below := ih hkey loaded
              rw [frame.repo] at below
              exact .after run frame below fun b hb => .inr (loaded.new hb)
      | tree unloaded new =>
          simp only [keyValuesFromTree, storedValues]
          refine Mirrors.map (.mapEach unloaded ?_)
          intro p q w₁ repo name lt node
          rw [← repo, ← keyToString_concat hkey, name]
          obtain ⟨missing, there⟩ := nodeEntry_fetches lt node
          cases hentry : storedEntry w₁.repo q.2.2 with
          | none =>
              obtain ⟨e, run⟩ := missing hentry
              refine .ok ?_ (.refl _ w₁)
              simp only [Bind.bind, Exec.bind, Exec.handle, run]
              rfl
          | some value =>
              obtain ⟨entry, w₂, run, frame, loaded⟩ := there value hentry
              have below := @ih _ w₂ (key ++ [q.1]) entry value (by simp) loaded
              rw [frame.repo] at below
              refine .after (a := some entry) ?_ frame below fun b hb => .inr (loaded.new hb)
              simp only [Exec.handle, Bind.bind, Exec.bind, run]
              rfl

omit [KeyValueStoreBackend S] in
/-- The subtraction does not underflow where the depth is not 0. -/
theorem depthBelow_run {ε : Type} {depth : Option Nat} (h : depth ≠ some 0) (w : World S) :
    (depthBelow depth : Call S ε (Option Nat)) w = (.ok (depth.map (· - 1)), w) := by
  cases depth with
  | none => rfl
  | some d =>
      cases d with
      | zero => exact absurd rfl h
      | succ d => rfl

/-- The tree of strings is made of what is in the store. -/
theorem getContextRecursive_mirrors (fuel : Nat) {base : Addr} {w : World S} (path : String)
    {entry : Entry} {value : Serialized} (depth : Option Nat) (loaded : Loaded base w entry value) :
    Mirrors entry.children (TezedgeIndex.getContextRecursive fuel path entry depth) w
      (storedDump w.repo fuel depth value) := by
  induction fuel generalizing base w path entry value depth with
  | zero => exact ⟨rfl, .refl _ w⟩
  | succ fuel ih =>
      simp only [TezedgeIndex.getContextRecursive, storedDump]
      split
      next => exact .ok rfl (.refl _ w)
      next hdepth =>
        cases loaded with
        | blob v => exact .ok rfl (.refl _ w)
        | commit c => exact .err rfl
        | tree unloaded new =>
            refine Mirrors.map (.mapEach unloaded ?_)
            intro p q w₁ repo name lt node
            rw [← repo, name]
            obtain ⟨missing, there⟩ := nodeEntry_fetches lt node
            cases hentry : storedEntry w₁.repo q.2.2 with
            | none =>
                obtain ⟨e, run⟩ := missing hentry
                exact .err (e := e) (by simp only [Bind.bind, Exec.bind, run])
            | some value =>
                obtain ⟨entry, w₂, run, frame, loaded⟩ := there value hentry
                have rest := ih (path ++ "/" ++ q.1) (depth.map (· - 1)) loaded
                rw [frame.repo] at rest
                refine .after run frame ?_ fun b hb => .inr (loaded.new hb)
                exact .after (depthBelow_run hdepth w₂) (.refl _ w₂) rest.map fun b hb => .inl hb

/-- The directory at a path: its children are not loaded. -/
theorem findRawTree_mirrors {w : World S} {root : Tree}
    {entries : OrdMap KeyFragment (NodeKind × HashId)}
    (unloaded : Unloaded w root.entries entries.entries) (path : ContextKey) :
    (∀ found, storedFind w.repo entries path = some found → ∃ tree w',
      TezedgeIndex.findRawTree root path w = (.ok tree, w') ∧ w'.repo = w.repo ∧
        Unloaded w' tree.entries found.entries) ∧
    (storedFind w.repo entries path = none →
      ∃ e w', TezedgeIndex.findRawTree root path w = (.err e, w')) := by
  induction path generalizing w root entries with
  | nil =>
      refine ⟨?_, fun h => by cases h⟩
      rintro found h
      cases h
      exact ⟨root, w, rfl, rfl, unloaded⟩
  | cons first rest ih =>
      -- An empty directory is found where there is none.
      have nothing : ∀ w' : World S, w'.repo = w.repo → ∃ tree w'',
          (pure .empty : Call S MerkleError Tree) w' = (.ok tree, w'') ∧ w''.repo = w.repo ∧
            Unloaded w'' tree.entries [] := fun w' repo => ⟨.empty, w', rfl, repo, .nil⟩
      simp only [storedFind, TezedgeIndex.findRawTree]
      cases ha : root.get first with
      | none =>
          have gone : entries.get first = none := unloaded.find_none.mp ha
          rw [gone]
          refine ⟨?_, fun h => by cases h⟩
          rintro found h
          cases h
          exact nothing w rfl
      | some a =>
          obtain ⟨q, hq, lt, node⟩ := unloaded.find_some ha
          have child : entries.get first = some q := hq
          simp only [child]
          obtain ⟨missing, there⟩ := nodeEntry_fetches lt node
          cases hentry : storedEntry w.repo q.2 with
          | none =>
              obtain ⟨e, run⟩ := missing hentry
              refine ⟨fun _ h => (by cases h), fun _ => ⟨e, w, ?_⟩⟩
              simp only [Bind.bind, Exec.bind, run]
          | some value =>
              obtain ⟨entry, w', run, frame, loaded⟩ := there value hentry
              rw [Exec.bind_ok run]
              cases loaded with
              | blob v =>
                  refine ⟨?_, fun h => by cases h⟩
                  rintro found h
                  cases h
                  exact nothing w' frame.repo
              | commit c => exact ⟨fun _ h => (by cases h), fun _ => ⟨_, w', rfl⟩⟩
              | tree unloaded' new =>
                  have below := ih unloaded'
                  rw [frame.repo] at below
                  exact below

/-! ## Queries -/

section Queries

variable {w : World S} {id : HashId} {c : Commit}

theorem getCommit_run (found : getValue id w.repo = .ok (some (.commit c))) :
    TezedgeIndex.getCommit id w = (.ok c, w) := by
  simp only [TezedgeIndex.getCommit, TezedgeIndex.findCommit, TezedgeIndex.findEntry, Bind.bind,
    Exec.bind, Exec.mapErr, Call.askRepo, Exec.query, found, deserialize, Pure.pure, Exec.pure,
    Exec.orFail]

/-- A call that gets the directory of the root. -/
structure GetsTree (w : World S) (root : HashId) (x : Call S MerkleError Tree) : Prop where
  there : ∀ entries, storedEntry w.repo root = some (.tree entries) → ∃ tree w',
    x w = (.ok tree, w') ∧ w'.repo = w.repo ∧ Unloaded w' tree.entries entries.entries
  other : (∀ entries, storedEntry w.repo root ≠ some (.tree entries)) → ∃ e w', x w = (.err e, w')

/-- The directory of an entry that was fetched. -/
theorem Fetches.getsTree {root : HashId} {x : Call S MerkleError Entry}
    (fetches : Fetches w root x) : GetsTree w root (x >>= entryTree) := by
  constructor
  · intro entries h
    obtain ⟨entry, w', run, frame, loaded⟩ := fetches.there _ h
    cases loaded with
    | tree unloaded new => exact ⟨_, w', Exec.bind_ok run, frame.repo, unloaded⟩
  · intro h
    cases hentry : storedEntry w.repo root with
    | none =>
        obtain ⟨e, run⟩ := fetches.missing hentry
        exact ⟨e, w, by simp only [Bind.bind, Exec.bind, run]⟩
    | some value =>
        obtain ⟨entry, w', run, frame, loaded⟩ := fetches.there value hentry
        rw [Exec.bind_ok run]
        cases loaded with
        | blob v => exact ⟨_, w', rfl⟩
        | commit c => exact ⟨_, w', rfl⟩
        | tree unloaded new => exact absurd hentry (h _)

/-- How `get_entry` ends after `find_entry`. -/
def gotEntry (root : HashId) : Outcome DBError (Option Entry) → Outcome MerkleError Entry
  | .ok (some entry) => .ok entry
  | .ok none => .err (.entryNotFound root)
  | .err e => .err (.dbError e)
  | .panic => .panic

/-- How `get_tree` ends after `find_entry`. -/
def gotTree (root : HashId) : Outcome DBError (Option Entry) → Outcome MerkleError Tree
  | .ok (some (.tree tree)) => .ok tree
  | .ok (some (.blob _)) => .err (.dbError (.foundUnexpectedStructure "tree" "blob"))
  | .ok (some (.commit _)) => .err (.dbError (.foundUnexpectedStructure "tree" "commit"))
  | .ok none => .err (.entryNotFound root)
  | .err e => .err (.dbError e)
  | .panic => .panic

/-- `get_tree` fetches as `get_entry` does. -/
theorem getTree_getsTree (w : World S) (root : HashId) :
    GetsTree w root (TezedgeIndex.getTree root) := by
  have fetches := getEntry_fetches w root
  cases hfind : TezedgeIndex.findEntry root w with
  | mk outcome w' =>
      have entry : TezedgeIndex.getEntry root w = (gotEntry root outcome, w') := by
        simp only [TezedgeIndex.getEntry, Bind.bind, Exec.bind, Exec.mapErr, hfind]
        rcases outcome with (_ | _) | _ | _ <;> rfl
      have tree : TezedgeIndex.getTree root w = (gotTree root outcome, w') := by
        simp only [TezedgeIndex.getTree, TezedgeIndex.findTree, Bind.bind, Exec.bind, Exec.mapErr,
          hfind]
        rcases outcome with (_ | _ | _ | _) | _ | _ <;> rfl
      constructor
      · intro entries h
        obtain ⟨e, w₁, run, frame, loaded⟩ := fetches.there _ h
        rw [entry] at run
        cases loaded with
        | tree unloaded new =>
            rcases outcome with (_ | e) | _ | _ <;> cases run
            exact ⟨_, _, tree, frame.repo, unloaded⟩
      · intro h
        cases hentry : storedEntry w.repo root with
        | none =>
            obtain ⟨e, run⟩ := fetches.missing hentry
            rw [entry] at run
            rcases outcome with (_ | e) | _ | _ <;> cases run <;> exact ⟨_, _, tree⟩
        | some value =>
            obtain ⟨e, w₁, run, frame, loaded⟩ := fetches.there value hentry
            rw [entry] at run
            cases loaded with
            | tree unloaded new => exact absurd hentry (h _)
            | blob v =>
                rcases outcome with (_ | e) | _ | _ <;> cases run
                exact ⟨_, _, tree⟩
            | commit c =>
                rcases outcome with (_ | e) | _ | _ <;> cases run
                exact ⟨_, _, tree⟩

/-- The loop over the first level of a query. -/
theorem mapEach_level {α : Type} {tree : Tree}
    {entries : OrdMap KeyFragment (NodeKind × HashId)} {w : World S}
    (unloaded : Unloaded w tree.entries entries.entries)
    {f : KeyFragment → Entry → Call S MerkleError α}
    {g : KeyFragment → Serialized → Outcome Unit α}
    (step : ∀ {name base w₁ entry value}, w₁.repo = w.repo → Loaded base w₁ entry value →
      Mirrors entry.children (f name entry) w₁ (g name value)) :
    Mirrors (tree.entries.map Prod.snd) (Exec.mapEach (fun p => do
      let entry ← TezedgeIndex.nodeEntry p.2
      f p.1 entry) tree.entries) w (storedLevel w.repo g entries) := by
  refine .mapEach unloaded ?_
  intro p q w₁ repo name lt node
  rw [← repo, name]
  obtain ⟨missing, there⟩ := nodeEntry_fetches lt node
  cases hentry : storedEntry w₁.repo q.2.2 with
  | none =>
      obtain ⟨e, run⟩ := missing hentry
      exact .err (e := e) (by simp only [Bind.bind, Exec.bind, run])
  | some value =>
      obtain ⟨entry, w₂, run, frame, loaded⟩ := there value hentry
      exact .after run frame (step (frame.repo.trans repo) loaded) fun b hb => .inr (loaded.new hb)

/-- The path of a child of the directory at the prefix. -/
theorem fullpath_eq (keyPrefix : ContextKey) (name : KeyFragment) :
    keyToString keyPrefix ++ (if keyPrefix.isEmpty then "" else "/") ++ name =
      keyToString (keyPrefix ++ [name]) := by
  cases keyPrefix with
  | nil => simp [keyToString]
  | cons first rest => rw [keyToString_concat (by simp)]; rfl

/-- What is left of a query when the directory of the root is there. -/
theorem query_ends {α β : Type} {root : HashId} {keyPrefix : ContextKey}
    {getRoot : Call S MerkleError Tree} (gets : GetsTree w root getRoot)
    {f : KeyFragment → Entry → Call S MerkleError α}
    {g : KeyFragment → Serialized → Outcome Unit α} (result : List α → β)
    (step : ∀ {name base w₁ entry value}, w₁.repo = w.repo → Loaded base w₁ entry value →
      Mirrors entry.children (f name entry) w₁ (g name value)) :
    (((do
      let rootTree ← getRoot
      let prefixedTree ← TezedgeIndex.findRawTree rootTree keyPrefix
      let l ← Exec.mapEach (fun p => do
        let entry ← TezedgeIndex.nodeEntry p.2
        f p.1 entry) prefixedTree.entries
      pure (result l)) : Call S MerkleError β) w).1.mapErr (fun _ => ()) =
      match storedUnder w.repo root keyPrefix with
      | none => .err ()
      | some entries => (storedLevel w.repo g entries).map result := by
  by_cases directory : ∃ entries, storedEntry w.repo root = some (.tree entries)
  · obtain ⟨entries, hroot⟩ := directory
    obtain ⟨tree, w₁, run, repo, unloaded⟩ := gets.there entries hroot
    obtain ⟨finds, fails⟩ := findRawTree_mirrors unloaded keyPrefix
    simp only [storedUnder, hroot]
    rw [Exec.bind_ok run]
    rw [repo] at finds fails
    cases hfind : storedFind w.repo entries keyPrefix with
    | none =>
        obtain ⟨e, w₂, found⟩ := fails hfind
        simp only [Bind.bind, Exec.bind, found]
        rfl
    | some found =>
        obtain ⟨tree', w₂, run', repo', unloaded'⟩ := finds found hfind
        rw [Exec.bind_ok run']
        have level := mapEach_level unloaded' fun {name base w₃ entry value} repo₃ loaded =>
          @step name base w₃ entry value (repo₃.trans repo') loaded
        rw [repo'] at level
        exact level.map.1
  · have none : storedUnder w.repo root keyPrefix = none := by
      unfold storedUnder
      split
      next entries h => exact absurd ⟨entries, h⟩ directory
      next => rfl
    obtain ⟨e, w₁, run⟩ := gets.other fun entries h => directory ⟨entries, h⟩
    rw [none]
    simp only [Bind.bind, Exec.bind, run]
    rfl

/-- Listing below the root of a commit, whichever copy does it. -/
theorem keyValuesByPrefix_ends {root : HashId} {getRoot : Call S MerkleError Tree}
    (gets : GetsTree w root getRoot) {getEntry : HashId → Call S MerkleError Entry}
    (fetch : ∀ w id, Fetches w id (getEntry id)) (fuel : Nat) (keyPrefix : ContextKey) :
    (((getRoot >>= fun rootTree => keyValuesByPrefix getEntry fuel rootTree keyPrefix) w).1.mapErr
      fun _ => ()) = storedListing w.repo fuel root keyPrefix := by
  refine query_ends gets (f := fun name entry => keyValuesFromTree getEntry fuel
      (keyToString keyPrefix ++ (if keyPrefix.isEmpty then "" else "/") ++ name) entry)
    (g := fun name value => storedValues w.repo fuel (keyPrefix ++ [name]) value)
    (fun l => if l.flatten.isEmpty then none else some l.flatten) ?_
  intro name base w₁ entry value repo loaded
  rw [fullpath_eq, ← repo]
  exact keyValuesFromTree_mirrors fetch fuel (by simp) loaded

/-- The working tree lists what is in the store. -/
theorem getKeyValuesByPrefix_ends (found : getValue id w.repo = .ok (some (.commit c)))
    (fuel : Nat) (keyPrefix : ContextKey) :
    ((WorkingTree.getKeyValuesByPrefix fuel id keyPrefix w).1.mapErr fun _ => ()) =
      storedListing w.repo fuel c.rootHash keyPrefix := by
  have gets := (getEntryFromHashId_fetches w c.rootHash).getsTree
  have ends := keyValuesByPrefix_ends gets getEntryFromHashId_fetches fuel keyPrefix
  rw [Exec.bind_assoc] at ends
  rw [WorkingTree.getKeyValuesByPrefix, Exec.bind_ok (getCommit_run found)]
  exact ends

/-- The index lists what is in the store. -/
theorem getContextKeyValuesByPrefix_ends (found : getValue id w.repo = .ok (some (.commit c)))
    (fuel : Nat) (keyPrefix : ContextKey) :
    ((TezedgeIndex.getContextKeyValuesByPrefix fuel id keyPrefix w).1.mapErr fun _ => ()) =
      storedListing w.repo fuel c.rootHash keyPrefix := by
  rw [TezedgeIndex.getContextKeyValuesByPrefix, Exec.bind_ok (getCommit_run found)]
  exact keyValuesByPrefix_ends (getTree_getsTree w c.rootHash) getEntry_fetches fuel keyPrefix

/-- The tree of strings is made of what is in the store. -/
theorem getContextTreeByPrefix_ends (found : getValue id w.repo = .ok (some (.commit c)))
    (fuel : Nat) (keyPrefix : ContextKey) (depth : Option Nat) :
    ((TezedgeIndex.getContextTreeByPrefix fuel id keyPrefix depth w).1.mapErr fun _ => ()) =
      storedTree w.repo fuel c.rootHash keyPrefix depth := by
  unfold TezedgeIndex.getContextTreeByPrefix storedTree
  split
  next => rfl
  next hdepth =>
    rw [Exec.bind_ok (getCommit_run found)]
    refine query_ends (getTree_getsTree w c.rootHash) (f := fun name entry => do
        let rdepth ← depthBelow depth
        let below ← TezedgeIndex.getContextRecursive fuel
          (keyToString keyPrefix ++ (if keyPrefix.isEmpty then "" else "/") ++ name) entry rdepth
        pure (name, below))
      (g := fun name value =>
        (storedDump w.repo fuel (depth.map (· - 1)) value).map fun t => (name, t))
      StringTreeEntry.ofEntries ?_
    intro name base w₁ entry value repo loaded
    rw [← repo]
    exact .after (depthBelow_run hdepth w₁) (.refl _ w₁)
      (getContextRecursive_mirrors fuel _ _ loaded).map fun b hb => .inl hb

end Queries

end NodeFuzzer
