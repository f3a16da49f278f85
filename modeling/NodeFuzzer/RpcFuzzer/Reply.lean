import Mathlib.Data.Finset.Insert
import NodeFuzzer.Library.Exec
import NodeFuzzer.Library.Json

/-!
# What is kept of a reply

`collect_reply_data` walks through the JSON value a node returned and keeps the strings under five
keys, to use them in later requests.  It unwraps the value under such a key, so a reply that has
no string there makes it panic.

`Under` says where such a value stands in a reply, and `Collects` what a call does with the
values it is about.  One rule for each statement of the loops then gives `collectReplyData_spec`.
-/

namespace NodeFuzzer

/-- The sets the strings are kept in. -/
structure Harvest where
  chains : Finset String
  branches : Finset String
  blocks : Finset String

namespace Harvest

/-- One of the sets. -/
inductive Part where
  | chains
  | branches
  | blocks
deriving DecidableEq

/-- The strings of a set. -/
def part (h : Harvest) : Part → Finset String
  | .chains => h.chains
  | .branches => h.branches
  | .blocks => h.blocks

/-- `HashSet::insert` into one of the sets. -/
def insert (h : Harvest) (s : String) : Part → Harvest
  | .chains => { h with chains := Insert.insert s h.chains }
  | .branches => { h with branches := Insert.insert s h.branches }
  | .blocks => { h with blocks := Insert.insert s h.blocks }

theorem mem_part_insert {h : Harvest} {s t : String} {p q : Part} :
    t ∈ (h.insert s q).part p ↔ t ∈ h.part p ∨ (p = q ∧ t = s) := by
  cases p <;> cases q <;> simp [insert, part, or_comm]

end Harvest

open Harvest

/-- `insert(value.as_str().unwrap().to_string())`. -/
def keep (p : Part) (value : Json) : Exec Harvest Empty Unit := do
  let s ← Exec.orAbort value.asStr
  Exec.modify fun h => h.insert s p

/-- The set a key is kept in. -/
def keptIn : String → Option Part
  | "branch" => some .branches
  | "chain_id" => some .chains
  | "block" => some .blocks
  | "block_hash" => some .blocks
  | "predecessor" => some .blocks
  | _ => none

mutual

/-- `collect_reply_data`. -/
def collectReplyData : Json → Exec Harvest Empty Unit
  | .array values => collectValues values
  | .object dict => collectMembers dict
  | _ => pure ()

/-- The loop through an array. -/
def collectValues : List Json → Exec Harvest Empty Unit
  | [] => pure ()
  | value :: rest => do
      collectReplyData value
      collectValues rest

/-- The loop through an object. -/
def collectMembers : List (String × Json) → Exec Harvest Empty Unit
  | [] => pure ()
  | (k, value) :: rest => do
      match keptIn k with
      | some p => keep p value
      | none => collectReplyData value
      collectMembers rest

end

/-! ## Where the values stand -/

/-- The value stands under a key that is kept in the set, and not below such a key. -/
inductive Under : Json → Part → Json → Prop where
  | member {dict : List (String × Json)} {k : String} {v : Json} {p : Part} :
    (k, v) ∈ dict → keptIn k = some p → Under (.object dict) p v
  | array {values : List Json} {v w : Json} {p : Part} :
    v ∈ values → Under v p w → Under (.array values) p w
  | object {dict : List (String × Json)} {k : String} {v w : Json} {p : Part} :
    (k, v) ∈ dict → keptIn k = none → Under v p w → Under (.object dict) p w

/-! ## What a call collects -/

/-- All values are strings. -/
def AllStrings (F : Part → Json → Prop) : Prop := ∀ p v, F p v → ∃ s, v = .string s

/-- The sets grew by exactly the strings among the values. -/
def GrownBy (F : Part → Json → Prop) (h h' : Harvest) : Prop :=
  ∀ p s, s ∈ h'.part p ↔ s ∈ h.part p ∨ F p (.string s)

/-- A call keeps the values when they are strings, and panics otherwise. -/
structure Collects (x : Exec Harvest Empty Unit) (F : Part → Json → Prop) : Prop where
  returns (h : Harvest) : AllStrings F → ∃ h', x h = (.ok (), h') ∧ GrownBy F h h'
  strings (h h' : Harvest) : x h = (.ok (), h') → AllStrings F

section Collects

variable {x y : Exec Harvest Empty Unit} {F G : Part → Json → Prop}

theorem collects_pure : Collects (pure ()) fun _ _ => False where
  returns h _ := ⟨h, rfl, by simp [GrownBy]⟩
  strings _ _ _ := by simp [AllStrings]

theorem collects_keep (p : Part) (value : Json) :
    Collects (keep p value) fun q v => q = p ∧ v = value where
  returns h strings := by
    obtain ⟨s, rfl⟩ := strings p value ⟨rfl, rfl⟩
    refine ⟨h.insert s p, rfl, fun q t => ?_⟩
    simp [mem_part_insert]
  strings h h' run := by
    obtain ⟨s, _, hs, -⟩ := Exec.of_bind_ok run
    rintro q v ⟨rfl, rfl⟩
    exact ⟨s, Json.asStr_eq_some.mp (Exec.of_orAbort_ok hs).1⟩

theorem Collects.bind (hx : Collects x F) (hy : Collects y G) :
    Collects (do x; y) fun p v => F p v ∨ G p v where
  returns h strings := by
    obtain ⟨h₁, run₁, grown₁⟩ := hx.returns h fun p v hv => strings p v (.inl hv)
    obtain ⟨h₂, run₂, grown₂⟩ := hy.returns h₁ fun p v hv => strings p v (.inr hv)
    refine ⟨h₂, (Exec.bind_ok run₁).trans run₂, fun p s => ?_⟩
    rw [grown₂, grown₁, or_assoc]
  strings h h' run := by
    obtain ⟨_, h₁, run₁, run₂⟩ := Exec.of_bind_ok run
    rintro p v (hv | hv)
    · exact hx.strings h h₁ run₁ p v hv
    · exact hy.strings h₁ h' run₂ p v hv

theorem Collects.congr (hx : Collects x F) (same : ∀ p v, F p v ↔ G p v) : Collects x G := by
  have : F = G := funext fun p => funext fun v => propext (same p v)
  exact this ▸ hx

end Collects

theorem collects_values {values : List Json}
    (each : ∀ v ∈ values, Collects (collectReplyData v) (Under v)) :
    Collects (collectValues values) fun p w => ∃ v ∈ values, Under v p w := by
  induction values with
  | nil =>
      rw [collectValues]
      exact collects_pure.congr (by simp)
  | cons value rest ih =>
      have later := ih fun v hv => each v (List.mem_cons_of_mem value hv)
      rw [collectValues]
      exact ((each value List.mem_cons_self).bind later).congr (by simp)

theorem collects_members {dict : List (String × Json)}
    (each : ∀ m ∈ dict, Collects (collectReplyData m.2) (Under m.2)) :
    Collects (collectMembers dict) fun p w => ∃ m ∈ dict,
      (keptIn m.1 = some p ∧ w = m.2) ∨ (keptIn m.1 = none ∧ Under m.2 p w) := by
  induction dict with
  | nil =>
      rw [collectMembers]
      exact collects_pure.congr (by simp)
  | cons m rest ih =>
      have later := ih fun m' hm => each m' (List.mem_cons_of_mem m hm)
      have first := each m List.mem_cons_self
      obtain ⟨k, value⟩ := m
      rw [collectMembers]
      cases kept : keptIn k with
      | none => exact (first.bind later).congr (by simp [kept])
      | some q => exact ((collects_keep q value).bind later).congr (by simp [kept, eq_comm])

theorem collects_replyData (value : Json) : Collects (collectReplyData value) (Under value) := by
  have scalar : ∀ v, (∀ p w, ¬ Under v p w) → Collects (pure ()) (Under v) := fun v none =>
    collects_pure.congr fun p w => ⟨False.elim, none p w⟩
  induction value using Json.induction with
  | null => exact scalar _ fun p w h => by cases h
  | bool b => exact scalar _ fun p w h => by cases h
  | number literal => exact scalar _ fun p w h => by cases h
  | string s => exact scalar _ fun p w h => by cases h
  | array values each =>
      refine (collects_values each).congr fun p w => ⟨?_, ?_⟩
      · rintro ⟨v, hv, h⟩
        exact .array hv h
      · intro h
        cases h with
        | array hv h => exact ⟨_, hv, h⟩
  | object dict each =>
      refine (collects_members each).congr fun p w => ⟨?_, ?_⟩
      · rintro ⟨⟨k, v⟩, hm, ⟨kept, rfl⟩ | ⟨free, h⟩⟩
        · exact .member hm kept
        · exact .object hm free h
      · intro h
        cases h with
        | member hm kept => exact ⟨_, hm, .inl ⟨kept, rfl⟩⟩
        | object hm free h => exact ⟨_, hm, .inr ⟨free, h⟩⟩

/-- A reply is harvested exactly when all that stands under the keys is a string. -/
theorem collectReplyData_spec (value : Json) (h : Harvest) :
    (∃ h', collectReplyData value h = (.ok (), h') ∧
      ∀ p s, s ∈ h'.part p ↔ s ∈ h.part p ∨ Under value p (.string s)) ↔
    ∀ p v, Under value p v → ∃ s, v = .string s := by
  have collects := collects_replyData value
  constructor
  · rintro ⟨h', run, -⟩
    exact collects.strings h h' run
  · exact collects.returns h

/-- A reply whose chain is no string. -/
theorem collectReplyData_null :
    collectReplyData (.object [("chain_id", .null)]) ⟨∅, ∅, ∅⟩ = (.panic, ⟨∅, ∅, ∅⟩) := rfl

end NodeFuzzer
