import NodeFuzzer.Context.PrefixListing

/-!
# Queries by prefix where an entry is missing

The error for a missing entry is dropped below the first level of a query, but not on it,
and not for the root of a commit that is found in a directory.  `Walks` and `Fails` say of
an entry of the store how the walk of it ends.
-/

namespace NodeFuzzer

open KeyValueStoreBackend Filter
open TezedgeIndex (keyToString stringToKey)

variable {S : Type} [KeyValueStoreBackend S]

/-! ## Entries that are missing -/

/-- The entries that can be reached from an entry. -/
inductive Reaches (repo : S) : HashId → HashId → Prop
  | here (id : HashId) : Reaches repo id id
  | child {id j : HashId} {entries : OrdMap KeyFragment (NodeKind × HashId)}
      {p : KeyFragment × NodeKind × HashId} (found : storedEntry repo id = some (.tree entries))
      (mem : p ∈ entries.entries) (rest : Reaches repo p.2.2 j) : Reaches repo id j
  | root {id j : HashId} {commit : Commit} (found : storedEntry repo id = some (.commit commit))
      (rest : Reaches repo commit.rootHash j) : Reaches repo id j

/-- The entry at a path. -/
inductive LeadsTo (repo : S) : HashId → ContextKey → HashId → Prop
  | nil (id : HashId) : LeadsTo repo id [] id
  | cons {id j : HashId} {entries : OrdMap KeyFragment (NodeKind × HashId)} {name : KeyFragment}
      {p : NodeKind × HashId} {key : ContextKey}
      (found : storedEntry repo id = some (.tree entries)) (child : entries.get name = some p)
      (rest : LeadsTo repo p.2 key j) : LeadsTo repo id (name :: key) j

/-- The values below an entry.  A commit stands for its root. -/
inductive HasValue (repo : S) : HashId → ContextKey → ContextValue → Prop
  | blob {id : HashId} {v : ContextValue} (found : storedEntry repo id = some (.blob v)) :
      HasValue repo id [] v
  | child {id : HashId} {entries : OrdMap KeyFragment (NodeKind × HashId)}
      {p : KeyFragment × NodeKind × HashId} {key : ContextKey} {v : ContextValue}
      (found : storedEntry repo id = some (.tree entries)) (mem : p ∈ entries.entries)
      (rest : HasValue repo p.2.2 key v) : HasValue repo id (p.1 :: key) v
  | root {id : HashId} {commit : Commit} {key : ContextKey} {v : ContextValue}
      (found : storedEntry repo id = some (.commit commit))
      (rest : HasValue repo commit.rootHash key v) : HasValue repo id key v

/-- A query by prefix does not truncate: it returns an error when an entry under the prefix
is missing, and what it returns otherwise has every value under the prefix. -/
structure Complete (repo : S) (root : HashId) (keyPrefix : ContextKey)
    (query : Nat → Outcome MerkleError (Option (List (ContextKey × ContextValue)))) : Prop where
  reported : ∀ j m, LeadsTo repo root keyPrefix j → Reaches repo j m → storedEntry repo m = none →
    ∃ n, ∀ fuel, n ≤ fuel → ∃ e, query fuel = .err e
  listed : ∀ fuel result, query fuel = .ok result → ∀ j key v, LeadsTo repo root keyPrefix j →
    HasValue repo j key v → key ≠ [] →
      (stringToKey (keyToString (keyPrefix ++ key)), v) ∈ result.getD []

/-- The walk below an entry that is there comes to its end: every commit in it has its root. -/
inductive Walks (repo : S) : HashId → Prop
  | blob {id : HashId} {v : ContextValue} (found : storedEntry repo id = some (.blob v)) :
      Walks repo id
  | tree {id : HashId} {entries : OrdMap KeyFragment (NodeKind × HashId)}
      (found : storedEntry repo id = some (.tree entries))
      (children : ∀ p ∈ entries.entries, storedEntry repo p.2.2 ≠ none → Walks repo p.2.2) :
      Walks repo id
  | commit {id : HashId} {commit : Commit} (found : storedEntry repo id = some (.commit commit))
      (root : Walks repo commit.rootHash) : Walks repo id

/-- The walk below an entry comes to a commit without its root. -/
inductive Fails (repo : S) : HashId → Prop
  | tree {id : HashId} {entries : OrdMap KeyFragment (NodeKind × HashId)}
      {pre post : List (KeyFragment × NodeKind × HashId)} {p : KeyFragment × NodeKind × HashId}
      (found : storedEntry repo id = some (.tree entries)) (split : entries.entries = pre ++ p :: post)
      (before : ∀ q ∈ pre, storedEntry repo q.2.2 ≠ none → Walks repo q.2.2)
      (here : Fails repo p.2.2) : Fails repo id
  | missing {id : HashId} {commit : Commit} (found : storedEntry repo id = some (.commit commit))
      (gone : storedEntry repo commit.rootHash = none) : Fails repo id
  | commit {id : HashId} {commit : Commit} (found : storedEntry repo id = some (.commit commit))
      (root : Fails repo commit.rootHash) : Fails repo id

/-- Where the directory at the prefix can be read, nothing under it is missing, or a child of
it or the root of a commit is missing and the walk comes to it. -/
def Reported (repo : S) (root : HashId) (keyPrefix : ContextKey) : Prop :=
  ∀ j entries, LeadsTo repo root keyPrefix j → storedEntry repo j = some (.tree entries) →
    (∀ m, Reaches repo j m → storedEntry repo m ≠ none) ∨
    ∃ pre p post, entries.entries = pre ++ p :: post ∧ (∀ q ∈ pre, Walks repo q.2.2) ∧
      (storedEntry repo p.2.2 = none ∨ Fails repo p.2.2)

section Present

variable {repo : S} {id m : HashId} {t : Contents}

theorem LeadsTo.reaches {root j : HashId} {keyPrefix : ContextKey}
    (leads : LeadsTo repo root keyPrefix j) (reach : Reaches repo j m) : Reaches repo root m := by
  induction leads with
  | nil id => exact reach
  | cons found child rest ih => exact .child found (OrdMap.mem_entries.mpr child) (ih reach)

/-- In a tree that is all there nothing is missing. -/
theorem StoredAs.present (stored : StoredAs repo id t) (reach : Reaches repo id m) :
    storedEntry repo m ≠ none := by
  induction stored with
  | value found =>
      have here := storedEntry_eq_some.mpr ⟨found, nofun⟩
      cases reach with
      | here => simp [here]
      | child found' => cases here.symm.trans found'
      | root found' => cases here.symm.trans found'
  | directory found below ih =>
      have here := storedEntry_eq_some.mpr ⟨found, nofun⟩
      cases reach with
      | here => simp [here]
      | child found' mem rest =>
          cases here.symm.trans found'
          exact ih _ mem rest
      | root found' => cases here.symm.trans found'

theorem StoredAs.reported (stored : StoredAs repo id t) (keyPrefix : ContextKey) :
    Reported repo id keyPrefix :=
  fun _ _ leads _ => .inl fun _ reach => stored.present (leads.reaches reach)

end Present

section Walk

variable {repo : S} {id : HashId} {value : Serialized}

/-- A walk that returns has come to its end. -/
theorem walks_of_ok {fuel : Nat} {key : ContextKey} {l : List (ContextKey × ContextValue)}
    (found : storedEntry repo id = some value) (run : storedValues repo fuel key value = .ok l) :
    Walks repo id := by
  induction fuel generalizing id key value l with
  | zero => cases run
  | succ fuel ih =>
      cases value with
      | invalid => cases run
      | blob v => exact .blob found
      | commit c =>
          rw [storedValues] at run
          cases hroot : storedEntry repo c.rootHash with
          | none => simp [hroot] at run
          | some value =>
              simp only [hroot] at run
              exact .commit found (ih hroot run)
      | tree entries =>
          rw [storedValues] at run
          obtain ⟨ls, each, -⟩ := Outcome.of_map_ok run
          refine .tree found fun p hp there => ?_
          obtain ⟨value, hvalue⟩ := Option.ne_none_iff_exists'.mp there
          obtain ⟨l', -, hl'⟩ := Outcome.of_each_ok each hp
          simp only [hvalue] at hl'
          exact ih hvalue hl'

/-- A walk that returns an error has come to a commit without its root. -/
theorem fails_of_err {fuel : Nat} {key : ContextKey} (found : storedEntry repo id = some value)
    (run : storedValues repo fuel key value = .err ()) : Fails repo id := by
  induction fuel generalizing id key value with
  | zero => cases run
  | succ fuel ih =>
      cases value with
      | invalid => exact absurd rfl (storedEntry_eq_some.mp found).2
      | blob v => cases run
      | commit c =>
          rw [storedValues] at run
          cases hroot : storedEntry repo c.rootHash with
          | none => exact .missing found hroot
          | some value =>
              simp only [hroot] at run
              exact .commit found (ih hroot run)
      | tree entries =>
          rw [storedValues] at run
          obtain ⟨pre, p, post, split, before, here⟩ := Outcome.each_err_iff.mp (Outcome.of_map_err run)
          cases hvalue : storedEntry repo p.2.2 with
          | none => simp [hvalue] at here
          | some value =>
              simp only [hvalue] at here
              refine .tree found split (fun q hq there => ?_) (ih hvalue here)
              obtain ⟨value', hvalue'⟩ := Option.ne_none_iff_exists'.mp there
              obtain ⟨l, hl⟩ := before q hq
              simp only [hvalue'] at hl
              exact walks_of_ok hvalue' hl

/-- What a child adds to the listing. -/
def storedChild (repo : S) (fuel : Nat) (id : HashId) (key : ContextKey) :
    Outcome Unit (List (ContextKey × ContextValue)) :=
  match storedEntry repo id with
  | none => .ok []
  | some value => storedValues repo fuel key value

theorem storedValues_tree (fuel : Nat) (key : ContextKey)
    (entries : OrdMap KeyFragment (NodeKind × HashId)) :
    storedValues repo (fuel + 1) key (.tree entries) =
      (Outcome.each (fun p => storedChild repo fuel p.2.2 (key ++ [p.1])) entries.entries).map
        List.flatten := rfl

/-- The walk of an entry returns after enough calls. -/
def Ends (repo : S) (id : HashId) : Prop :=
  ∃ value, storedEntry repo id = some value ∧
    ∀ᶠ fuel in atTop, ∀ key, ∃ l, storedValues repo fuel key value = .ok l

/-- A child that is missing is passed over. -/
theorem storedChild_returns (there : storedEntry repo id ≠ none → Ends repo id) :
    ∀ᶠ fuel in atTop, ∀ key, ∃ l, storedChild repo fuel id key = .ok l := by
  unfold storedChild
  cases hid : storedEntry repo id with
  | none => exact .of_forall fun fuel key => ⟨[], rfl⟩
  | some value =>
      obtain ⟨value', hvalue', returns⟩ := there (by simp [hid])
      cases hid.symm.trans hvalue'
      exact returns

theorem Walks.ends (walks : Walks repo id) : Ends repo id := by
  induction walks with
  | blob found => exact ⟨_, found, eventually_succ (.of_forall fun fuel key => ⟨_, rfl⟩)⟩
  | commit found root ih =>
      obtain ⟨value, hvalue, returns⟩ := ih
      refine ⟨_, found, eventually_succ (returns.mono fun fuel run key => ?_)⟩
      simpa only [storedValues, hvalue] using run key
  | tree found children ih =>
      have below := eventually_forall_mem fun p hp => storedChild_returns (ih p hp)
      refine ⟨_, found, eventually_succ (below.mono fun fuel run key => ?_)⟩
      obtain ⟨ls, each⟩ := Outcome.each_ok_of_forall fun p hp => run p hp (key ++ [p.1])
      exact ⟨ls.flatten, by rw [storedValues_tree, each]; rfl⟩

/-- After enough calls the walk of an entry that comes to a commit without its root returns an
error. -/
theorem Fails.ends (fails : Fails repo id) : ∃ value, storedEntry repo id = some value ∧
    ∀ᶠ fuel in atTop, ∀ key, storedValues repo fuel key value = .err () := by
  induction fails with
  | missing found gone =>
      refine ⟨_, found, eventually_succ (.of_forall fun fuel key => ?_)⟩
      simp only [storedValues, gone]
  | commit found root ih =>
      obtain ⟨value, hvalue, returns⟩ := ih
      refine ⟨_, found, eventually_succ (returns.mono fun fuel run key => ?_)⟩
      simpa only [storedValues, hvalue] using run key
  | tree found split before here ih =>
      obtain ⟨value, hvalue, returns⟩ := ih
      have first := eventually_forall_mem fun q hq =>
        storedChild_returns fun there => (before q hq there).ends
      refine ⟨_, found, eventually_succ ((first.and returns).mono ?_)⟩
      intro fuel h key
      obtain ⟨run, err⟩ := h
      rw [storedValues_tree, Outcome.each_err_iff.mpr ⟨_, _, _, split, ?_, ?_⟩]
      · rfl
      · exact fun q hq => run q hq (key ++ [q.1])
      · simp only [storedChild, hvalue, err]

theorem HasValue.there {key : ContextKey} {v : ContextValue} (has : HasValue repo id key v) :
    ∃ value, storedEntry repo id = some value := by
  cases has <;> exact ⟨_, ‹_›⟩

/-- A walk that returns has listed every value. -/
theorem HasValue.listed {fuel : Nat} {key ext : ContextKey} {v : ContextValue}
    {l : List (ContextKey × ContextValue)} (has : HasValue repo id ext v)
    (found : storedEntry repo id = some value) (run : storedValues repo fuel key value = .ok l) :
    (stringToKey (keyToString (key ++ ext)), v) ∈ l := by
  induction has generalizing fuel key value l with
  | blob found' =>
      cases found'.symm.trans found
      cases fuel with
      | zero => cases run
      | succ fuel =>
          cases run
          simp
  | @child id entries p ext v found' mem rest ih =>
      cases found'.symm.trans found
      cases fuel with
      | zero => cases run
      | succ fuel =>
          rw [storedValues] at run
          obtain ⟨ls, each, rfl⟩ := Outcome.of_map_ok run
          obtain ⟨l', hl', below⟩ := Outcome.of_each_ok each mem
          obtain ⟨value, hvalue⟩ := rest.there
          simp only [hvalue] at below
          have here := ih hvalue below
          rw [List.append_assoc, List.singleton_append] at here
          exact List.mem_flatten.mpr ⟨l', hl', here⟩
  | @root id commit ext v found' rest ih =>
      cases found'.symm.trans found
      cases fuel with
      | zero => cases run
      | succ fuel =>
          obtain ⟨value, hvalue⟩ := rest.there
          simp only [storedValues, hvalue] at run
          exact ih hvalue run

end Walk

section Under

variable {repo : S} {root j : HashId} {keyPrefix : ContextKey}

/-- The directory at the end of a path is found. -/
theorem LeadsTo.under {below : OrdMap KeyFragment (NodeKind × HashId)}
    (leads : LeadsTo repo root keyPrefix j) (here : storedEntry repo j = some (.tree below)) :
    storedUnder repo root keyPrefix = some below := by
  induction leads with
  | nil id => simp only [storedUnder, here, storedFind]
  | cons found child rest ih =>
      cases rest with
      | nil =>
          rw [storedUnder_cons found child here]
          simp only [storedUnder, here, storedFind]
      | cons found' child' rest' =>
          rw [storedUnder_cons found child found']
          exact ih here

/-- An entry at the end of a path that is no directory and no value is an error. -/
theorem LeadsTo.under_none (leads : LeadsTo repo root keyPrefix j)
    (noTree : ∀ below, storedEntry repo j ≠ some (.tree below))
    (noBlob : ∀ v, storedEntry repo j ≠ some (.blob v)) :
    storedUnder repo root keyPrefix = none := by
  induction leads with
  | nil id =>
      unfold storedUnder
      split
      next below h => exact absurd h (noTree below)
      next => rfl
  | @cons id j entries name p key found child rest ih =>
      cases rest with
      | nil =>
          simp only [storedUnder, found, storedFind, child]
      | cons found' child' rest' =>
          rw [storedUnder_cons found child found']
          exact ih noTree noBlob

/-- From some depth on a listing is an error where the first child that cannot be walked is
missing or comes to a commit without its root. -/
theorem storedListing_err {below : OrdMap KeyFragment (NodeKind × HashId)}
    (under : storedUnder repo root keyPrefix = some below) :
    (∀ᶠ fuel in atTop, storedListing repo fuel root keyPrefix = .err ()) ↔
      ∃ pre p post, below.entries = pre ++ p :: post ∧ (∀ q ∈ pre, Walks repo q.2.2) ∧
        (storedEntry repo p.2.2 = none ∨ Fails repo p.2.2) := by
  simp only [storedListing, under]
  constructor
  · intro fails
    obtain ⟨fuel, run⟩ := fails.exists
    obtain ⟨pre, p, post, split, before, here⟩ := Outcome.each_err_iff.mp (Outcome.of_map_err run)
    refine ⟨pre, p, post, split, ?_, ?_⟩
    · intro q hq
      obtain ⟨l, hl⟩ := before q hq
      cases hvalue : storedEntry repo q.2.2 with
      | none => simp [hvalue] at hl
      | some value =>
          simp only [hvalue] at hl
          exact walks_of_ok hvalue hl
    · cases hvalue : storedEntry repo p.2.2 with
      | none => exact .inl rfl
      | some value =>
          simp only [hvalue] at here
          exact .inr (fails_of_err hvalue here)
  · intro h
    obtain ⟨pre, p, post, split, before, here⟩ := h
    have first := eventually_storedEntry fun q hq => (before q hq).ends
    have last : ∀ᶠ fuel in atTop, (match storedEntry repo p.2.2 with
        | none => Outcome.err ()
        | some value => storedValues repo fuel (keyPrefix ++ [p.1]) value) = Outcome.err () := by
      rcases here with gone | fails
      · simp [gone]
      · obtain ⟨value, hvalue, returns⟩ := fails.ends
        simp only [hvalue]
        exact returns.mono fun fuel run => run _
    refine (first.and last).mono ?_
    intro fuel h
    obtain ⟨run, err⟩ := h
    rw [storedLevel, Outcome.each_err_iff.mpr ⟨pre, p, post, split, ?_, err⟩]
    · rfl
    · intro q hq
      obtain ⟨value, hvalue, returns⟩ := run q hq
      simpa only [hvalue] using returns (keyPrefix ++ [q.1])

/-- A listing that is returned has every value below the directory. -/
theorem mem_storedListing {fuel : Nat} {below : OrdMap KeyFragment (NodeKind × HashId)}
    {result : Option (List (ContextKey × ContextValue))}
    (under : storedUnder repo root keyPrefix = some below)
    (run : storedListing repo fuel root keyPrefix = .ok result)
    {p : KeyFragment × NodeKind × HashId} (mem : p ∈ below.entries) {key : ContextKey}
    {v : ContextValue} (has : HasValue repo p.2.2 key v) :
    (stringToKey (keyToString (keyPrefix ++ p.1 :: key)), v) ∈ result.getD [] := by
  simp only [storedListing, under] at run
  obtain ⟨ls, level, rfl⟩ := Outcome.of_map_ok run
  obtain ⟨l, hl, here⟩ := Outcome.of_each_ok level mem
  obtain ⟨value, hvalue⟩ := has.there
  simp only [hvalue] at here
  have value := has.listed hvalue here
  rw [List.append_assoc, List.singleton_append] at value
  have flat := List.mem_flatten.mpr ⟨l, hl, value⟩
  have listed : ¬ls.flatten.isEmpty = true := by
    rw [List.isEmpty_iff]
    exact List.ne_nil_of_mem flat
  rw [if_neg listed]
  exact flat

/-- A query that ends as the listing does truncates nothing when what is missing is reported. -/
theorem complete_iff
    {query : Nat → Outcome MerkleError (Option (List (ContextKey × ContextValue)))}
    (ends : ∀ fuel, (query fuel).mapErr (fun _ => ()) = storedListing repo fuel root keyPrefix) :
    Complete repo root keyPrefix query ↔ Reported repo root keyPrefix := by
  have err : (∃ n, ∀ fuel, n ≤ fuel → ∃ e, query fuel = .err e) ↔
      ∀ᶠ fuel in atTop, storedListing repo fuel root keyPrefix = .err () := by
    rw [eventually_atTop]
    simp only [← ends, Outcome.mapErr_err_iff]
  constructor
  · intro complete j below leads here
    by_cases all : ∀ m, Reaches repo j m → storedEntry repo m ≠ none
    · exact .inl all
    · push Not at all
      obtain ⟨m, reach, gone⟩ := all
      have fails := err.mp (complete.reported j m leads reach gone)
      exact .inr ((storedListing_err (leads.under here)).mp fails)
  · intro reported
    constructor
    · intro j m leads reach gone
      rw [err]
      cases reach with
      | here =>
          have under := leads.under_none (by simp [gone]) (by simp [gone])
          simp [storedListing, under]
      | root found rest =>
          have under := leads.under_none (by simp [found]) (by simp [found])
          simp [storedListing, under]
      | child found mem rest =>
          rw [storedListing_err (leads.under found)]
          rcases reported j _ leads found with all | split
          · exact absurd gone (all m (.child found mem rest))
          · exact split
    · intro fuel result run j key v leads has hkey
      have listing := ends fuel
      rw [run] at listing
      cases has with
      | blob found => exact absurd rfl hkey
      | child found mem rest => exact mem_storedListing (leads.under found) listing.symm mem rest
      | root found rest =>
          have under := leads.under_none (by simp [found]) (by simp [found])
          simp only [storedListing, under] at listing
          cases listing

end Under

section Sample

end Sample

end NodeFuzzer
