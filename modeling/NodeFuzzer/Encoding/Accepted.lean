import NodeFuzzer.Encoding.RoundTrip
import NodeFuzzer.Encoding.Size

/-!
# What is accepted can be written

A derived reader returns only values the writer has no error for, and takes from its input
at least the bytes the writer needs for them (`spends_generateNomRead`).  This needs a
schema without sized blocks, whose reader drops what the block does not use, and without
the two kinds of numbers the writer refuses a part of.
-/

namespace NodeFuzzer

open Nom

mutual

/-- Every value that is read can be written again. -/
def Schema.rewrites : Schema → Bool
  | .primitive .int31 | .primitive .uint32 => false
  | .primitive _ | .bytes | .hash _ | .path | .string _ => true
  | .struct _ fields => fields.rewrites
  | .enum _ tagType _ tags => (tagType.size == 1 || tagType.size == 2) && tags.rewrites
  | .optionField inner => inner.rewrites
  | .list _ inner => inner.rewrites
  | .sized _ _ => false
  | .bounded _ inner => inner.rewrites
  | .dynamic _ inner => inner.rewrites

@[inherit_doc Schema.rewrites]
def Fields.rewrites : Fields → Bool
  | .nil => true
  | .cons _ encoding rest => encoding.rewrites && rest.rewrites

@[inherit_doc Schema.rewrites]
def Tags.rewrites : Tags → Bool
  | .nil => true
  | .unit _ _ rest => rest.rewrites
  | .newtype _ _ encoding rest => encoding.rewrites && rest.rewrites

end

/-- The value can be written, and its Merkle path hashes have their size. -/
def Schema.Accepted (s : Schema) (v : s.Val) : Prop :=
  s.Writable v ∧ s.All (fun _ => True) HashSized v

@[inherit_doc Schema.Accepted]
def Fields.Accepted (fields : Fields) (v : fields.Val) : Prop :=
  fields.Writable v ∧ fields.All (fun _ => True) HashSized v

@[inherit_doc Schema.Accepted]
def Tags.Accepted (tags : Tags) (v : tags.Val) : Prop :=
  tags.Writable v ∧ tags.All (fun _ => True) HashSized v

/-! ## Paths -/

/-- What a node of a path takes from the input. -/
def nodeCost : DecodePathNode → Nat
  | .left => 1
  | .right _ => 33

/-- What a node of a path takes from the input behind the nodes. -/
def completeCost : DecodePathNode → Nat
  | .left => 32
  | .right _ => 0

/-- The hash of a node has its size. -/
def NodeSized : DecodePathNode → Prop
  | .left => True
  | .right h => h.length = 32

theorem spends_node : Spends (alt pathLeft pathRight) nodeCost NodeSized := by
  refine Spends.alt ?_ ?_
  · refine ((spends_tag _).preceded (spends_success DecodePathNode.left)).mono fun node h => ?_
    rw [h]
    exact ⟨trivial, rfl⟩
  · have hright : Spends (map hash .right) (fun node => nodeCost node - 1)
        (fun node => NodeSized node ∧ 1 ≤ nodeCost node) :=
      (spends_take 32).map fun h hlen => ⟨⟨hlen, Nat.le_add_left 1 32⟩, hlen.symm⟩
    exact ((spends_tag _).preceded hright).mono fun node h => ⟨h.1, (Nat.add_sub_cancel' h.2).symm⟩

/-- Each step of a path adds a hash of 32 bytes. -/
theorem hashSized_append {res : List PathItem} {item : PathItem} (hres : HashSized res)
    (hitem : item.hash.length = 32) : HashSized (res ++ [item]) := by
  intro other hother
  simp only [List.mem_append, List.mem_singleton] at hother
  obtain hother | rfl := hother
  · exact hres other hother
  · exact hitem

/-- The sides of a path are read after its nodes, one for each. -/
theorem pathCompleteLoop_done {nodes : List DecodePathNode} {res items : List PathItem}
    {input rest : Bytes} (h : pathCompleteLoop nodes res input = .done rest items)
    (hnodes : ∀ node ∈ nodes, NodeSized node) (hres : HashSized res) :
    HashSized items ∧ items.length = res.length + nodes.length ∧
      (nodes.map completeCost).sum + rest.length ≤ input.length := by
  induction nodes generalizing res input with
  | nil =>
      cases h
      exact ⟨hres, rfl, Nat.le_of_eq (Nat.zero_add _)⟩
  | cons node nodes ih =>
      have hrest : ∀ node ∈ nodes, NodeSized node := fun n hn => hnodes n (List.mem_cons_of_mem _ hn)
      cases node with
      | right hash =>
          have hhash : NodeSized (.right hash) := hnodes _ List.mem_cons_self
          obtain ⟨hitems, hlen, hle⟩ := ih h hrest (hashSized_append hres hhash)
          rw [List.length_append, List.length_singleton] at hlen
          simp only [List.map_cons, List.sum_cons, completeCost, List.length_cons]
          exact ⟨hitems, by omega, by omega⟩
      | left =>
          obtain ⟨rest', bytes, hbytes, h⟩ := andThen_eq_done h
          obtain ⟨hhash, htaken⟩ := spends_take 32 _ _ _ hbytes
          obtain ⟨hitems, hlen, hle⟩ := ih h hrest (hashSized_append hres hhash)
          rw [List.length_append, List.length_singleton] at hlen
          simp only [List.map_cons, List.sum_cons, completeCost, List.length_cons]
          exact ⟨hitems, by omega, by omega⟩

/-- A step of a path costs 33 bytes, however many of them are read at first. -/
theorem sum_nodeCost (nodes : List DecodePathNode) :
    (nodes.map nodeCost).sum + (nodes.map completeCost).sum = 33 * nodes.length := by
  induction nodes with
  | nil => rfl
  | cons node nodes ih =>
      cases node <;> simp only [List.map_cons, List.sum_cons, nodeCost, completeCost,
        List.length_cons] <;> omega

/-- A path is read within the depth that is allowed. -/
theorem spends_path : Spends (path MAX_PASS_MERKLE_DEPTH) Schema.path.size Schema.path.Accepted := by
  intro input rest items h
  obtain ⟨rest', nodes, hverify, h⟩ := andThen_eq_done h
  obtain ⟨rest'', nodes', hmany, hverify⟩ := andThen_eq_done hverify
  split at hverify
  next hdepth =>
    cases hverify
    obtain ⟨rest₃, res, hloop, h⟩ := andThen_eq_done h
    cases h
    have hmarker : Spends pathOp (fun _ => 1) fun _ => True :=
      ((spends_tag _).preceded (spends_success ())).mono fun _ _ => ⟨trivial, rfl⟩
    obtain ⟨hnodes, htaken⟩ := (spends_node.manyTill hmarker) _ _ _ hmany
    have hreverse : ∀ node ∈ nodes.reverse, NodeSized node :=
      fun node hnode => hnodes node (List.mem_reverse.mp hnode)
    obtain ⟨hres, hlen, hle⟩ := pathCompleteLoop_done hloop hreverse nofun
    have hitems : HashSized res.reverse := fun item hitem => hres item (List.mem_reverse.mp hitem)
    have hcost := sum_nodeCost nodes
    rw [List.length_nil, List.length_reverse, Nat.zero_add] at hlen
    rw [List.map_reverse, List.sum_reverse] at hle
    have hmax : res.reverse.length ≤ 3 := by
      rw [List.length_reverse, hlen]
      simpa [MAX_PASS_MERKLE_DEPTH] using hdepth
    refine ⟨⟨fun max hm => Option.some.inj hm ▸ hmax, hitems⟩, ?_⟩
    show (bodyPath (res.reverse.map PathItem.parts)).length + _ ≤ _
    rw [bodyPath_length hitems, List.length_reverse, hlen]
    dsimp only at htaken
    omega
  next => cases hverify

/-! ## Derived readers -/

theorem spends_number {α : Type} (w : Nat) (f : Nat → α) {P : α → Prop} (h : ∀ a, P a) :
    Spends (E := DecodeError) (map (beNumber w) f) (fun _ => w) P :=
  (spends_beNumber w).map fun a _ => ⟨h (f a), rfl⟩

/-- A number of a fixed width. -/
theorem spends_primitive {p : PrimitiveEncoding} (h : (Schema.primitive p).rewrites = true) :
    Spends p.nomRead (Schema.primitive p).size (Schema.primitive p).Accepted := by
  cases p with
  | int31 => cases h
  | uint32 => cases h
  | bool =>
      refine Spends.alt ?_ ?_
      · exact (spends_tag _).map fun _ _ => ⟨⟨trivial, trivial⟩, rfl⟩
      · exact (spends_tag _).map fun _ _ => ⟨⟨trivial, trivial⟩, rfl⟩
  | int8 | uint8 => exact spends_number 1 _ fun _ => ⟨trivial, trivial⟩
  | int16 | uint16 => exact spends_number 2 _ fun _ => ⟨trivial, trivial⟩
  | int32 => exact spends_number 4 _ fun _ => ⟨trivial, trivial⟩
  | int64 | float | timestamp => exact spends_number 8 _ fun _ => ⟨trivial, trivial⟩

theorem spends_size : Spends size (fun _ => 4) (fun n => n < 2 ^ 32 ∧ ∀ m : Nat, none = some m → n ≤ m) :=
  (spends_beNumber 4).mono fun _ hn => ⟨⟨hn.trans_eq (by norm_num), nofun⟩, rfl⟩

theorem spends_boundedSize (kind : BoundedEncodingKind) (max : Nat) :
    Spends (boundedSize kind max) (fun _ => 4) (fun n => n < 2 ^ 32 ∧ ∀ m, some max = some m → n ≤ m) := by
  intro input rest n h
  obtain ⟨rest', n', hn', h⟩ := andThen_eq_done h
  split at h
  next hle =>
    cases h
    obtain ⟨hlt, htaken⟩ := spends_size _ _ _ hn'
    exact ⟨⟨hlt.1, fun m hm => Option.some.inj hm ▸ hle⟩, htaken⟩
  next => cases h

/-- A string costs its bytes and four more. -/
theorem spends_string {len : Reader Nat} {max : Option Nat}
    (h : Spends len (fun _ => 4) (fun n => n < 2 ^ 32 ∧ ∀ m, max = some m → n ≤ m)) :
    Spends (mapRes utf8Error (complete (lengthData len)) fromUtf8) (Schema.string max).size
      (Schema.string max).Accepted := by
  refine h.lengthData.complete.mapRes fun b v hb hv => ?_
  have hutf8 := utf8_of_fromUtf8 hv
  refine ⟨⟨?_, trivial⟩, ?_⟩
  · intro m hm
    rw [hutf8]
    exact hb.2 m hm
  · show 4 + (utf8 v).length = _
    rw [hutf8]

/-- What is read within a bound costs no more than it. -/
theorem spends_bounded {s : Schema} {f : Reader s.Val} (max : Nat) (h : Spends f s.size s.Accepted) :
    Spends (Nom.bounded max f) (Schema.bounded max s).size (Schema.bounded max s).Accepted := by
  intro input rest v hv
  simp only [Nom.bounded] at hv
  split at hv
  next rest' v' hf =>
    cases hv
    obtain ⟨haccepted, hle⟩ := h _ _ _ hf
    have htake : (input.take (min max input.length)).length = min max input.length :=
      List.length_take_of_le (Nat.min_le_right _ _)
    rw [htake] at hle
    refine ⟨⟨⟨haccepted.1, ?_⟩, haccepted.2⟩, ?_⟩
    · omega
    · show s.size v + _ ≤ _
      rw [List.length_drop]
      omega
  next => cases hv
  next => cases hv
  next => cases hv

/-- The bytes of a block are all used up. -/
theorem spends_dynamic {s : Schema} {len : Reader Nat} {f : Reader s.Val} {max : Option Nat}
    (hlen : Spends len (fun _ => 4) (fun n => n < 2 ^ 32 ∧ ∀ m, max = some m → n ≤ m))
    (h : Spends f s.size s.Accepted) :
    Spends (lengthValue len (allConsuming f)) (Schema.dynamic max s).size
      (Schema.dynamic max s).Accepted := by
  refine (hlen.lengthValue h).mono fun v hv => ?_
  obtain ⟨haccepted, n, ⟨hlt, hmax⟩, hle⟩ := hv
  exact ⟨⟨⟨haccepted.1, hle.trans_lt hlt, fun m hm => hle.trans (hmax m hm)⟩, haccepted.2⟩, rfl⟩

/-- No more elements are read than are allowed. -/
theorem spends_boundedList {s : Schema} {f : Reader s.Val} (max : Nat)
    (h : Spends f s.size s.Accepted) :
    Spends (boundedList max f) (Schema.list (some max) s).size (Schema.list (some max) s).Accepted := by
  intro input rest l hl
  obtain ⟨rest', l', hl', hl⟩ := andThen_eq_done hl
  split at hl
  next => cases hl
  next =>
    cases hl
    obtain ⟨hall, hlen, hsum⟩ := h.foldManyMax max (List.forall_mem_nil _) hl'
    rw [List.length_nil, Nat.zero_add] at hlen
    rw [List.map_nil, List.sum_nil, Nat.zero_add] at hsum
    exact ⟨⟨⟨fun m hm => Option.some.inj hm ▸ hlen, fun v hv => (hall v hv).1⟩,
      fun v hv => (hall v hv).2⟩, hsum⟩

mutual

/-- What a derived reader returns can be written, with at most the bytes that were read. -/
theorem spends_generateNomRead : (s : Schema) → s.rewrites = true →
    Spends (generateNomRead s) s.size s.Accepted
  | .primitive p, h => spends_primitive h
  | .bytes, _ => by
      intro input rest v hv
      cases hv
      exact ⟨⟨trivial, trivial⟩, Nat.le_refl _⟩
  | .hash t, _ => (spends_take t.size).mono fun v hv => ⟨⟨hv, trivial⟩, rfl⟩
  | .path, _ => spends_path
  | .string none, _ => spends_string spends_size
  | .string (some max), _ => spends_string (spends_boundedSize .string max)
  | .struct name fields, h => by
      obtain ⟨label, hlabel⟩ := generateNomRead_struct name fields
      intro input rest v hv
      rw [hlabel] at hv
      exact spends_generateFieldsNomRead label fields h _ _ _ hv
  | .enum name tagType ignoreUnknown tags, h => by
      rw [Schema.rewrites, Bool.and_eq_true, Bool.or_eq_true, beq_iff_eq, beq_iff_eq] at h
      intro input rest v hv
      obtain ⟨rest', tag, htag, hv⟩ := andThen_eq_done hv
      have htaken := (spends_beNumber tagType.size _ _ _ htag).2
      obtain ⟨haccepted, hle⟩ := spends_generateTagNomRead name ignoreUnknown tag tags h.2 _ _ _ hv
      refine ⟨⟨⟨h.1, haccepted.1⟩, haccepted.2⟩, ?_⟩
      show tagType.size + tags.size v + _ ≤ _
      dsimp only at htaken
      omega
  | .optionField inner, h => by
      have hnone : Spends (preceded (tag [0x00]) (success (E := DecodeError) (none : Option inner.Val)))
          (Schema.optionField inner).size (Schema.optionField inner).Accepted := by
        refine ((spends_tag _).preceded (spends_success (none : Option inner.Val))).mono fun v hv => ?_
        subst hv
        exact ⟨⟨trivial, trivial⟩, rfl⟩
      have hsome : Spends (preceded (tag [0xff]) (map (generateNomRead inner) some))
          (Schema.optionField inner).size (Schema.optionField inner).Accepted := by
        have hinner : Spends (map (generateNomRead inner) some)
            (fun v => (Schema.optionField inner).size v - 1)
            (fun v => (Schema.optionField inner).Accepted v ∧ 1 ≤ (Schema.optionField inner).size v) :=
          (spends_generateNomRead inner h).map fun v hv =>
            ⟨⟨hv, Nat.le_add_right 1 _⟩, Nat.add_sub_cancel_left 1 _⟩
        exact ((spends_tag _).preceded hinner).mono fun v hv => ⟨hv.1, (Nat.add_sub_cancel' hv.2).symm⟩
      exact hnone.alt hsome
  | .list none inner, h => by
      refine (spends_generateNomRead inner h).many0.mono fun l hl => ?_
      exact ⟨⟨⟨nofun, fun v hv => (hl v hv).1⟩, fun v hv => (hl v hv).2⟩, rfl⟩
  | .list (some max) inner, h => spends_boundedList max (spends_generateNomRead inner h)
  | .bounded max inner, h => spends_bounded max (spends_generateNomRead inner h)
  | .dynamic none inner, h => spends_dynamic spends_size (spends_generateNomRead inner h)
  | .dynamic (some max) inner, h =>
      spends_dynamic (spends_boundedSize .dynamic max) (spends_generateNomRead inner h)

@[inherit_doc spends_generateNomRead]
theorem spends_generateFieldsNomRead (label : String → String) : (fields : Fields) →
    fields.rewrites = true → Spends (generateFieldsNomRead label fields) fields.size fields.Accepted
  | .nil, _ => by
      intro input rest v hv
      cases hv
      exact ⟨⟨trivial, trivial⟩, Nat.le_of_eq (Nat.zero_add _)⟩
  | .cons name encoding others, h => by
      rw [Fields.rewrites, Bool.and_eq_true] at h
      intro input rest v hv
      obtain ⟨rest₁, v₁, h₁, hv⟩ := andThen_eq_done hv
      obtain ⟨rest₂, v₂, h₂, hv⟩ := andThen_eq_done hv
      cases hv
      obtain ⟨haccepted₁, hle₁⟩ := spends_generateNomRead encoding h.1 _ _ _ (mapError_eq_done h₁)
      obtain ⟨haccepted₂, hle₂⟩ := spends_generateFieldsNomRead label others h.2 _ _ _ h₂
      refine ⟨⟨⟨haccepted₁.1, haccepted₂.1⟩, haccepted₁.2, haccepted₂.2⟩, ?_⟩
      show encoding.size v₁ + others.size v₂ + _ ≤ _
      omega

@[inherit_doc spends_generateNomRead]
theorem spends_generateTagNomRead (enumName : String) (ignoreUnknown : Bool) (tag : Nat) :
    (tags : Tags) → tags.rewrites = true →
      Spends (generateTagNomRead enumName ignoreUnknown tag tags) tags.size tags.Accepted
  | .nil, _ => fun _ _ _ h => by cases h
  | .unit id name others, h => by
      intro input rest v hv
      simp only [generateTagNomRead] at hv
      split at hv
      next =>
        cases hv
        exact ⟨⟨trivial, trivial⟩, Nat.le_of_eq (Nat.zero_add _)⟩
      next =>
        obtain ⟨rest', v', hv', hv⟩ := andThen_eq_done hv
        cases hv
        exact spends_generateTagNomRead enumName ignoreUnknown tag others h _ _ _ hv'
  | .newtype id name encoding others, h => by
      rw [Tags.rewrites, Bool.and_eq_true] at h
      intro input rest v hv
      simp only [generateTagNomRead] at hv
      split at hv
      next =>
        obtain ⟨rest', v', hv', hv⟩ := andThen_eq_done hv
        cases hv
        exact spends_generateNomRead encoding h.1 _ _ _ (mapError_eq_done hv')
      next =>
        obtain ⟨rest', v', hv', hv⟩ := andThen_eq_done hv
        cases hv
        exact spends_generateTagNomRead enumName ignoreUnknown tag others h.2 _ _ _ hv'

end

end NodeFuzzer
