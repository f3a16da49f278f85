import NodeFuzzer.Context.Durable
import NodeFuzzer.Context.EmptyDirectories
import NodeFuzzer.Context.Grafting
import NodeFuzzer.Context.Regular

/-!
# Membership

`mem`, `mem_tree`, `find` and `find_tree` follow a path on their own.  All four are told by
what the path leads to.  `mem` does not look at the entry it finds, so that it counts a
directory as a value; `mem_tree` agrees with `find_tree`, and with the values below.
-/

namespace NodeFuzzer

section Answers

variable {S : Type} [KeyValueStoreBackend S] {w : World S} {t : WorkingTree}

/-- `mem` says that there is something at the path. -/
theorem mem_iff {key : ContextKey} (tight : Tight w.heap) (within : Within w.heap t.root)
    (present : Present w t.root) (ne : key ≠ []) :
    (t.mem key w).1 = .ok true ↔ treeAnswer w t.root key ≠ .absent := by
  obtain ⟨path, file, rfl⟩ := List.eq_nil_or_concat key |>.resolve_left ne
  rw [List.concat_eq_append]
  obtain ⟨tree, w', found, _, _, _, below⟩ := Exec.wp_returns
    (Exec.wp_mono (findRawTree_reads tight within path) (fun _ _ h => h) fun _ h =>
      h.elim fun key broken => present key broken)
  have run : (t.mem (path ++ [file]) w).1 = .ok (tree.get file).isSome := by
    simp only [WorkingTree.mem, List.getLast?_concat, List.dropLast_concat, Exec.handle,
      Exec.bind_ok found]
    rfl
  have answer := below file []
  rw [run, ← answer]
  cases ha : tree.get file with
  | none =>
      rw [treeAnswer_none w' ha]
      simp
  | some a =>
      rw [treeAnswer_some w' ha]
      exact ⟨fun _ => answerIn_nil_ne_absent _ _, fun _ => rfl⟩

/-- `find` finds the value at the path. -/
theorem find_some_iff {key : ContextKey} {v : ContextValue} (tight : Tight w.heap)
    (within : Within w.heap t.root) (present : Present w t.root) (ne : key ≠ []) :
    (t.find key w).1 = .ok (some v) ↔ treeAnswer w t.root key = .value v := by
  rw [(find_reads tight within present ne).1, findOutcome_ok_iff]
  simp

/-- The directory at the path has something in it. -/
theorem findRawTree_full_iff (key : ContextKey) (tight : Tight w.heap)
    (within : Within w.heap t.root) (present : Present w t.root) :
    ∃ tree w', TezedgeIndex.findRawTree t.root key w = (.ok tree, w') ∧
      (tree.isEmpty = false ↔ treeAnswer w t.root key = .directory false) := by
  have spec := Exec.wp_and (findRawTree_reads tight within key) (findRawTree_empty tight within key)
  obtain ⟨tree, w', found, ⟨_, _, here, _⟩, empty⟩ := Exec.wp_returns
    (Exec.wp_mono spec (fun _ _ h => h) fun _ h =>
      h.1.elim fun key broken => present key broken)
  refine ⟨tree, w', found, ?_⟩
  constructor
  · intro full
    rcases here with here | rfl
    · rw [here, full]
    · cases full
  · intro answer
    by_contra hempty
    exact (empty (by simpa using hempty)).1 answer

/-- `mem_tree` says that there is a directory with something in it. -/
theorem memTree_iff {key : ContextKey} (tight : Tight w.heap) (within : Within w.heap t.root)
    (present : Present w t.root) :
    (t.memTree key w).1 = .ok true ↔ treeAnswer w t.root key = .directory false := by
  obtain ⟨tree, w', found, full⟩ := findRawTree_full_iff key tight within present
  have run : (t.memTree key w).1 = .ok (!tree.isEmpty) := by
    simp only [WorkingTree.memTree, Exec.handle, Exec.bind_ok found]
    rfl
  rw [run, ← full]
  simp

/-- `find_tree` finds a directory with something in it. -/
theorem findTree_some_iff {key : ContextKey} (tight : Tight w.heap)
    (within : Within w.heap t.root) (present : Present w t.root) :
    (∃ s, (t.findTree key w).1 = .ok (some s)) ↔ treeAnswer w t.root key = .directory false := by
  obtain ⟨tree, w', found, full⟩ := findRawTree_full_iff key tight within present
  rw [← full, WorkingTree.findTree, Exec.bind_ok found]
  cases tree.isEmpty with
  | true =>
      constructor
      · intro h
        obtain ⟨s, hs⟩ := h
        cases hs
      · intro h
        cases h
  | false => exact ⟨fun _ => rfl, fun _ => ⟨_, rfl⟩⟩

/-- Where no directory is empty, a directory has a value below it, and nothing else has. -/
theorem full_iff_value_below {c : Contents} (shows : Shows w (treeContent t.root) c)
    (full : NoneEmpty w t.root) {key : ContextKey} (ne : key ≠ []) :
    treeAnswer w t.root key = .directory false ↔
      ∃ q v, key <+: q ∧ q ≠ key ∧ treeAnswer w t.root q = .value v := by
  have answer : ∀ key, treeAnswer w t.root key = answerOf (c.get key) := shows
  constructor
  · intro here
    rw [answer] at here
    cases hs : c.get key with
    | none =>
        rw [hs] at here
        cases here
    | some s =>
        rw [hs] at here
        obtain ⟨path, v, hv⟩ : ∃ path v, s.get path = some (.value v) := by
          refine NameTree.exists_value ?_
          intro path names child h
          have below := full (key ++ path) (List.append_ne_nil_of_left_ne_nil ne path)
          rw [answer, NameTree.get_append, hs, Option.bind_some, h] at below
          by_contra none
          refine below (congrArg Answer.directory (decide_eq_true ?_))
          exact Finset.not_nonempty_iff_eq_empty.mp none
        have found : c.get (key ++ path) = some (.value v) := by
          rw [NameTree.get_append, hs]
          exact hv
        refine ⟨key ++ path, v, List.prefix_append key path, ?_, ?_⟩
        · intro same
          rw [same, hs] at found
          cases found
          cases here
        · rw [answer, found]
          rfl
  · intro below
    obtain ⟨q, v, ⟨rest, rfl⟩, longer, hq⟩ := below
    rw [answer, answerOf_eq_value, NameTree.get_append] at hq
    obtain ⟨s, hs, hv⟩ := Option.bind_eq_some_iff.mp hq
    rw [answer, hs]
    cases rest with
    | nil => exact absurd (List.append_nil key) longer
    | cons name rest =>
        cases s with
        | value v' => cases hv
        | directory names child =>
            rw [NameTree.get_directory_cons] at hv
            have mem : name ∈ names := by
              by_contra absent
              rw [if_neg absent] at hv
              cases hv
            refine congrArg Answer.directory (decide_eq_false ?_)
            exact Finset.ne_empty_of_mem mem

end Answers

/-! ## Whole runs -/

section Runs

variable [Digest] {s : Session System}

/-- In a process that puts no empty directory in place: `mem` agrees with `find` at the paths
that lead to no directory, and nowhere else.  `mem_tree` agrees with `find_tree` and with the
values below at all paths. -/
theorem mem_law_iff {disabled : Bool} {schedule : List Nat}
    (run : TreeRuns (fun s op => op.Fills s) (.start disabled schedule) s) {t : WorkingTree}
    (reached : t ∈ s.trees ∨ ∃ c ∈ s.contexts, c.tree = t) (present : Present s.world t.root)
    {key : ContextKey} (ne : key ≠ []) :
    (((t.mem key s.world).1 = .ok true ↔ ∃ v, (t.find key s.world).1 = .ok (some v)) ↔
      ∀ empty, treeAnswer s.world t.root key ≠ .directory empty) ∧
    ((t.memTree key s.world).1 = .ok true ↔ ∃ r, (t.findTree key s.world).1 = .ok (some r)) ∧
    ((t.memTree key s.world).1 = .ok true ↔
      ∃ q v, key <+: q ∧ q ≠ key ∧ (t.find q s.world).1 = .ok (some v)) := by
  have session := run.full (fullSession_start disabled schedule)
  have sound := session.sound.sound
  have tight : Tight s.world.heap := fun _ hentry => (sound.nodes _).within hentry
  obtain ⟨_, c, shows⟩ := run.quiet.shows reached present
  have within : Within s.world.heap t.root := by
    rcases reached with mem | ⟨c, hc, rfl⟩
    · exact session.sound.trees t mem
    · exact (session.sound.contexts c hc).within
  have full := session.full.noneEmpty sound within
  refine ⟨?_, ?_, ?_⟩
  · have found : (∃ v, (t.find key s.world).1 = .ok (some v)) ↔
        ∃ v, treeAnswer s.world t.root key = .value v :=
      exists_congr fun v => find_some_iff tight within present ne
    rw [mem_iff tight within present ne, found]
    cases answer : treeAnswer s.world t.root key with
    | value v => simp
    | directory empty => simp
    | absent => simp
    | broken => exact absurd answer (present key)
  · rw [memTree_iff tight within present, findTree_some_iff tight within present]
  · rw [memTree_iff tight within present, full_iff_value_below shows full ne]
    constructor
    · intro h
      obtain ⟨q, v, below, longer, hq⟩ := h
      exact ⟨q, v, below, longer, (find_some_iff tight within present
        fun nil => ne (List.prefix_nil.mp (nil ▸ below))).mpr hq⟩
    · intro h
      obtain ⟨q, v, below, longer, hq⟩ := h
      exact ⟨q, v, below, longer, (find_some_iff tight within present
        fun nil => ne (List.prefix_nil.mp (nil ▸ below))).mp hq⟩

end Runs

section Sample

local instance membershipDigest : Digest := sampleDigest

/-- A value in a directory. -/
def added : Session System :=
  (Session.start false []).afterTree [.op .new, .op (.add 0 ["a", "b"] [1])]

theorem mem_law_iff_added : ∃ c, added.contexts[1]? = some c ∧
    ((c.tree.mem ["a", "b"] added.world).1 = .ok true ↔
      ∃ v, (c.tree.find ["a", "b"] added.world).1 = .ok (some v)) ∧
    ∃ r, (c.tree.findTree ["a"] added.world).1 = .ok (some r) := by
  have run : TreeRuns (fun s op => op.Fills s) (.start false []) added := by
    refine treeRuns_cons (.op .new) trivial ?_
    exact treeRuns_cons (.op (.add 0 ["a", "b"] [1])) trivial .refl
  have saves : RunsIf (fun s op => op.Saves s) (.start false []) added := by
    refine runsIf_cons .new trivial ?_
    exact runsIf_cons (.add 0 ["a", "b"] [1]) trivial .refl
  obtain ⟨c, hc⟩ : ∃ c, added.contexts[1]? = some c :=
    Option.isSome_iff_exists.mp (by decide +kernel)
  have mem := List.mem_of_getElem? hc
  obtain ⟨session, _⟩ := saves.lasts (durableSession_start false [])
  have present := session.durable.present session.sound.sound (session.sound.contexts c mem).within
  obtain ⟨law, _, _⟩ := mem_law_iff run (Or.inr ⟨c, mem, rfl⟩) present (List.cons_ne_nil "a" ["b"])
  obtain ⟨_, trees, _⟩ := mem_law_iff run (Or.inr ⟨c, mem, rfl⟩) present (List.cons_ne_nil "a" [])
  have value : (added.contexts[1]?.map fun c => treeAnswer added.world c.tree.root ["a", "b"]) =
      some (.value [1]) := by decide +kernel
  have there : (added.contexts[1]?.map fun c => (c.tree.memTree ["a"] added.world).1) =
      some (.ok true) := by decide +kernel
  rw [hc] at value there
  have value : treeAnswer added.world c.tree.root ["a", "b"] = .value [1] := Option.some.inj value
  refine ⟨c, hc, law.mpr ?_, trees.mp (Option.some.inj there)⟩
  intro empty directory
  rw [value] at directory
  cases directory

/-- `mem` is true of a directory, where `find` returns an error. -/
theorem mem_of_directory : ∃ c, added.contexts[1]? = some c ∧
    (c.tree.mem ["a"] added.world).1 = .ok true ∧
    (c.tree.find ["a"] added.world).1 = .err (.valueIsNotABlob "a") ∧
    ¬ ((c.tree.mem ["a"] added.world).1 = .ok true ↔
      ∃ v, (c.tree.find ["a"] added.world).1 = .ok (some v)) := by
  obtain ⟨c, hc⟩ : ∃ c, added.contexts[1]? = some c :=
    Option.isSome_iff_exists.mp (by decide +kernel)
  have mem : (added.contexts[1]?.map fun c => (c.tree.mem ["a"] added.world).1) =
      some (.ok true) := by decide +kernel
  have find : (added.contexts[1]?.map fun c => (c.tree.find ["a"] added.world).1) =
      some (.err (.valueIsNotABlob "a")) := by decide +kernel
  rw [hc] at mem find
  have mem : (c.tree.mem ["a"] added.world).1 = .ok true := Option.some.inj mem
  have find : (c.tree.find ["a"] added.world).1 = .err (.valueIsNotABlob "a") :=
    Option.some.inj find
  refine ⟨c, hc, mem, find, ?_⟩
  intro agree
  obtain ⟨v, hv⟩ := agree.mp mem
  rw [find] at hv
  cases hv

end Sample

end NodeFuzzer
