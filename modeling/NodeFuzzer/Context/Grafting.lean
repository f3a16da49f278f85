import NodeFuzzer.Context.Laws

/-!
# Grafting

`copy` and `add_tree` put a directory that is there in place of what was at a key.  `copy`
takes it from a path of the same tree, through `find_raw_tree`, which answers with an
empty directory for a path that leads nowhere and for one that leads to a value.
-/

namespace NodeFuzzer

open KeyValueStoreBackend

variable {S : Type} [KeyValueStoreBackend S] {w : World S}

/-- What `find` returns for an answer that is found at one key or at another. -/
theorem findOutcome_ok_iff {key : ContextKey} {answer : Answer} {r : Option ContextValue} :
    findOutcome key answer = .ok r ↔
      (answer = .absent ∧ r = none) ∨ ∃ v, answer = .value v ∧ r = some v := by
  cases answer <;> simp [findOutcome, eq_comm]

theorem putAnswer_toKey (key : ContextKey) (new old : ContextKey → Answer) :
    putAnswer key new old key = new [] := by
  have here := putAnswer_append key new old []
  rw [List.append_nil] at here
  exact here

/-! ## Copying -/

/-- What `copy` makes: the answers below the source appear below the target, and at the
target is a directory, whatever the source is. -/
theorem copy_changed {t : WorkingTree} {fromKey toKey : ContextKey} (tight : Tight w.heap)
    (within : Within w.heap t.root) (present : Present w t.root) (hto : toKey ≠ []) :
    ∃ t' w' source empty, t.copy fromKey toKey w = (.ok (some t'), w') ∧
      Changed w (putAnswer toKey source (treeAnswer w t.root)) t' w' ∧
      source [] = .directory empty ∧
      ∀ name key, source (name :: key) = treeAnswer w t.root (fromKey ++ name :: key) := by
  have spec := findRawTree_reads tight within fromKey
  obtain ⟨tree, w₁, found, reads, within₁, _, below⟩ := Exec.wp_returns
    (Exec.wp_mono spec (fun _ _ h => h) fun _ h => h.elim fun key broken => present key broken)
  obtain ⟨root, w', run, changed⟩ := changed_put reads.tight (within.mono reads.next)
    (present.reads reads within) hto
    (show (getNonLeaf (.tree tree)).entry = some (.tree tree) from rfl)
    (fun h => by cases h; exact within₁)
  have old : treeAnswer w₁ t.root = treeAnswer w t.root := funext (reads.treeAnswer within)
  rw [old] at changed
  refine ⟨.tree root, w', treeAnswer w₁ tree, tree.isEmpty, ?_,
    ⟨reads.trans changed.reads, changed.within, changed.answer⟩, rfl, below⟩
  simp only [WorkingTree.copy, Exec.handle, bind, Exec.bind, found, run, entryTree, pure, Exec.pure]

/-- `copy` does what it says if and only if a directory is at the source: it answers `None`
when nothing is there, and otherwise every value below the source is then below the target,
and nothing beside the target changes. -/
theorem copy_law_iff {t : WorkingTree} {fromKey toKey : ContextKey} (tight : Tight w.heap)
    (within : Within w.heap t.root) (present : Present w t.root) (hfrom : fromKey ≠ [])
    (hto : toKey ≠ []) :
    (((t.copy fromKey toKey w).1 = .ok none ↔ (t.find fromKey w).1 = .ok none) ∧
      ((t.find fromKey w).1 ≠ .ok none →
        ∃ t' w', t.copy fromKey toKey w = (.ok (some t'), w') ∧
          (∀ s r, (t'.find (toKey ++ s) w').1 = .ok r ↔ (t.find (fromKey ++ s) w).1 = .ok r) ∧
          ∀ q, ¬ q <+: toKey → ¬ toKey <+: q → (t'.find q w').1 = (t.find q w).1)) ↔
    ∃ empty, treeAnswer w t.root fromKey = .directory empty := by
  obtain ⟨t', w', source, empty, run, changed, here, below⟩ :=
    @copy_changed _ _ w t fromKey toKey tight within present hto
  have unbroken : ∀ q, source q ≠ .broken := by
    intro q
    cases q with
    | nil =>
        rw [here]
        exact nofun
    | cons name key =>
        rw [below]
        exact present _
  have found : ∀ {q}, q ≠ [] → (t'.find q w').1 =
      findOutcome q (putAnswer toKey source (treeAnswer w t.root) q) :=
    fun hq => changed.find (putAnswer_ne_broken unbroken present) hq
  have before : ∀ {q}, q ≠ [] → (t.find q w).1 = findOutcome q (treeAnswer w t.root q) :=
    fun hq => (find_reads tight within present hq).1
  rw [before hfrom, run]
  constructor
  · intro law
    obtain ⟨missing, copies⟩ := law
    cases answer : treeAnswer w t.root fromKey with
    | directory empty => exact ⟨empty, rfl⟩
    | broken => exact absurd answer (present fromKey)
    | absent =>
        rw [answer] at missing
        cases missing.mpr rfl
    | value v =>
        -- The value is not copied: a directory is put in place.
        rw [answer] at copies
        obtain ⟨t'', w'', run', same, _⟩ := copies nofun
        cases run'
        have value := (same [] (some v)).mpr (by rw [List.append_nil, before hfrom, answer]; rfl)
        rw [List.append_nil, found hto, putAnswer_toKey, here] at value
        cases value
  · intro directory
    obtain ⟨empty', answer⟩ := directory
    rw [answer]
    refine ⟨⟨nofun, nofun⟩, fun _ => ⟨t', w', rfl, ?_, ?_⟩⟩
    · intro s r
      rw [found (by simp [hto]), putAnswer_append, before (by simp [hfrom])]
      cases s with
      | nil =>
          rw [List.append_nil, here, List.append_nil, answer]
          simp [findOutcome]
      | cons name key => rw [below, findOutcome_ok_iff, findOutcome_ok_iff]
    · intro q above below
      have hq : q ≠ [] := fun h => above (h ▸ List.nil_prefix)
      rw [found hq, putAnswer_beside _ _ above below, before hq]

section Sample

local instance graftingDigest : Digest := sampleDigest

/-- A directory is added to the tree with one value, and copied. -/
theorem copy_law_iff_oneValue :
    ∃ (t : WorkingTree) (w : World System),
      oneValueTree.add ["d", "b"] [2] oneValue = (.ok t, w) ∧
      ∃ t' w', t.copy ["d"] ["e"] w = (.ok (some t'), w') ∧
        (t'.find ["e", "b"] w').1 = .ok (some [2]) := by
  obtain ⟨t, w, run, changed⟩ := add_changed [2] tight_oneValue within_oneValueTree
    present_oneValueTree (List.cons_ne_nil "d" ["b"])
  have unbroken : ∀ q, treeAnswer w t.root q ≠ .broken := by
    intro q
    rw [changed.answer]
    refine putAnswer_ne_broken ?_ present_oneValueTree q
    intro q
    cases q <;> exact nofun
  have directory : treeAnswer w t.root ["d"] = .directory false := by
    rw [changed.answer]
    exact putAnswer_above _ _ ⟨["b"], rfl⟩ (by simp)
  have value : (t.find ["d", "b"] w).1 = .ok (some [2]) := by
    rw [(find_reads changed.reads.tight changed.within unbroken (List.cons_ne_nil _ _)).1,
      changed.answer]
    rfl
  have law := (copy_law_iff changed.reads.tight changed.within unbroken
    (List.cons_ne_nil "d" []) (List.cons_ne_nil "e" [])).mpr ⟨false, directory⟩
  have found : (t.find ["d"] w).1 ≠ .ok none := by
    rw [(find_reads changed.reads.tight changed.within unbroken (List.cons_ne_nil _ _)).1,
      directory]
    exact nofun
  obtain ⟨t', w', copied, same, _⟩ := law.2 found
  exact ⟨t, w, run, t', w', copied, (same ["b"] (some [2])).mpr value⟩

/-- A value is copied, and an empty directory is put in place. -/
theorem copy_of_value_puts_directory :
    (Tight oneValue.heap ∧ Within oneValue.heap oneValueTree.root ∧
      Present oneValue oneValueTree.root) ∧
    ¬ (((oneValueTree.copy ["a"] ["b"] oneValue).1 = .ok none ↔
          (oneValueTree.find ["a"] oneValue).1 = .ok none) ∧
        ((oneValueTree.find ["a"] oneValue).1 ≠ .ok none →
          ∃ t' w', oneValueTree.copy ["a"] ["b"] oneValue = (.ok (some t'), w') ∧
            (∀ s r, (t'.find (["b"] ++ s) w').1 = .ok r ↔
              (oneValueTree.find (["a"] ++ s) oneValue).1 = .ok r) ∧
            ∀ q, ¬ q <+: ["b"] → ¬ ["b"] <+: q →
              (t'.find q w').1 = (oneValueTree.find q oneValue).1)) := by
  refine ⟨⟨tight_oneValue, within_oneValueTree, present_oneValueTree⟩, ?_⟩
  intro law
  have before : (oneValueTree.find ["a"] oneValue).1 = .ok (some [1]) := by decide +kernel
  obtain ⟨t', w', run, same, _⟩ := law.2 (by simp [before])
  have copied := (same [] (some [1])).mpr before
  have directory : ((oneValueTree.copy ["a"] ["b"] >>= fun copied =>
      Exec.orAbort copied >>= fun t' => t'.find ["b"]) oneValue).1 =
        .err (.valueIsNotABlob "b") := by
    decide +kernel
  rw [Exec.bind_ok run] at directory
  cases copied.symm.trans directory

end Sample

end NodeFuzzer
