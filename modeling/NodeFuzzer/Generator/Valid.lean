import NodeFuzzer.Generator.Messages
import NodeFuzzer.Messages.Size

/-!
# Rules for generators

`Gives gen P s` says that a generator returns from the state `s`, whatever is drawn, with a
value that has `P`, and that it does not touch the messages that were received.  The rules
follow the way generators are put together.
-/

namespace NodeFuzzer

namespace RandomState

variable {T U : Type} {s t : RandomState}

/-- The messages that were received. -/
def received (s : RandomState) : Option CurrentBranchMessage × Option CurrentHeadMessage ×
    Option BlockHeaderMessage × Option OperationMessage × Option ProtocolMessage ×
    Option OperationsForBlocksMessage :=
  (s.currentBranch, s.currentHead, s.blockHeader, s.operation, s.protocol, s.operationsForBlocks)

/-- The same messages were received, and the fitness was not counted on. -/
structure Keeps (s t : RandomState) : Prop where
  received : t.received = s.received
  fitnessCount : t.fitnessCount = s.fitnessCount

theorem Keeps.refl (s : RandomState) : Keeps s s := ⟨rfl, rfl⟩

theorem Keeps.trans {u : RandomState} (h : Keeps s t) (h' : Keeps t u) : Keeps s u :=
  ⟨h'.received.trans h.received, h'.fitnessCount.trans h.fitnessCount⟩

/-- The generator returns a value with `P`.  The rules below are the only place that looks at
how it runs. -/
@[irreducible] def Gives (gen : Gen T) (P : T → Prop) (s : RandomState) : Prop :=
  Exec.wp gen (fun a t => P a ∧ Keeps s t) (fun _ => False) s

/-- A generator that gives such values returns one. -/
theorem Gives.returns {gen : Gen T} {P : T → Prop} (h : Gives gen P s) :
    ∃ a t, gen s = (.ok a, t) ∧ P a ∧ Keeps s t := by
  rw [Gives] at h
  exact Exec.wp_returns h

theorem Gives.mono {gen : Gen T} {P Q : T → Prop} (h : Gives gen P s) (imp : ∀ a, P a → Q a) :
    Gives gen Q s := by
  rw [Gives] at h ⊢
  exact Exec.wp_mono h (fun a _ h => ⟨imp a h.1, h.2⟩) fun _ h => h

/-- What comes after is asked for such values only. -/
theorem Gives.bind {gen : Gen T} {next : T → Gen U} {P : T → Prop} {Q : U → Prop}
    (h : Gives gen P s) (rest : ∀ a t, P a → Keeps s t → Gives (next a) Q t) :
    Gives (gen >>= next) Q s := by
  rw [Gives, Exec.wp_bind]
  rw [Gives] at h
  refine Exec.wp_mono h (fun a t ⟨ha, ht⟩ => ?_) fun _ h => h
  have hrest := rest a t ha ht
  rw [Gives] at hrest
  exact Exec.wp_mono hrest (fun b u ⟨hb, hu⟩ => ⟨hb, ht.trans hu⟩) fun _ h => h

theorem gives_pure {P : T → Prop} {a : T} (h : P a) : Gives (pure a) P s := by
  rw [Gives, Exec.wp_pure]
  exact ⟨h, .refl s⟩

theorem Gives.map {gen : Gen T} {f : T → U} {P : T → Prop} {Q : U → Prop} (h : Gives gen P s)
    (imp : ∀ a, P a → Q (f a)) : Gives (f <$> gen) Q s :=
  h.bind fun a _ ha _ => gives_pure (imp a ha)

theorem gives_gets (f : RandomState → T) : Gives (Exec.gets f) (fun a => a = f s) s := by
  rw [Gives, Exec.wp_gets]
  exact ⟨rfl, .refl s⟩

theorem gives_orAbort {o : Option T} {P : T → Prop} (h : ∃ a, o = some a ∧ P a) :
    Gives (Exec.orAbort o) P s := by
  obtain ⟨a, rfl, ha⟩ := h
  exact gives_pure ha

theorem gives_unwrap {ε : Type} {e : Except ε T} {P : T → Prop} (h : ∃ a, e = .ok a ∧ P a) :
    Gives (Exec.unwrap e) P s := by
  obtain ⟨a, rfl, ha⟩ := h
  exact gives_pure ha

theorem gives_genRange {lo hi : Nat} (h : lo < hi) :
    Gives (genRange lo hi) (fun n => lo ≤ n ∧ n < hi) s := by
  rw [Gives]
  exact wp_genRange h fun _ _ hlo hhi => ⟨⟨hlo, hhi⟩, rfl, rfl⟩

theorem gives_genBool : Gives genBool (fun _ => True) s := by
  rw [Gives]
  exact wp_genBool fun _ _ => ⟨trivial, rfl, rfl⟩

theorem gives_genT [Standard T] : Gives (genT T) (fun _ => True) s := by
  rw [Gives]
  exact wp_genT fun _ _ => ⟨trivial, rfl, rfl⟩

/-- As many elements as were asked for. -/
theorem gives_genVec [Standard T] {size : Nat} :
    Gives (genVec T size) (fun l => l.length = size) s := by
  rw [Gives]
  exact wp_genVec fun _ _ hlen => ⟨hlen, rfl, rfl⟩

/-- Whichever way the coin falls. -/
theorem gives_coin {x y : Gen T} {P : T → Prop} (left : ∀ t, Keeps s t → Gives x P t)
    (right : ∀ t, Keeps s t → Gives y P t) : Gives (coin x y) P s :=
  gives_genBool.bind fun b t _ ht => by
    cases b with
    | true => exact left t ht
    | false => exact right t ht

/-- Each element is given in a state that is as before for what matters. -/
theorem gives_collect {gen : Gen T} {P : T → Prop} {size : Nat}
    (h : ∀ t, Keeps s t → Gives gen P t) :
    Gives (collect size gen) (fun l => l.length = size ∧ ∀ a ∈ l, P a) s := by
  have step : ∀ t, Keeps s t → Exec.wp gen (fun a t' => P a ∧ Keeps s t') (fun _ => False) t := by
    intro t ht
    have hgen := h t ht
    rw [Gives] at hgen
    exact Exec.wp_mono hgen (fun a u ⟨ha, hu⟩ => ⟨ha, ht.trans hu⟩) fun _ h => h
  have loop : Exec.wp (collect size gen) _ _ s := wp_collect (Keeps.refl s) step
  rw [Gives]
  exact Exec.wp_mono loop (fun l t ⟨hlen, hall, ht⟩ => ⟨⟨hlen, hall⟩, ht⟩) fun _ h => h

/-! ## Strings, hashes and addresses -/

/-- The bytes of a string are those of its characters. -/
theorem utf8_ofList_length (cs : List Char) : (utf8 (String.ofList cs)).length = utf8Len cs := by
  rw [utf8, String.toByteArray_ofList]
  induction cs with
  | nil => rfl
  | cons c cs ih =>
      rw [List.utf8Encode_cons, List.utf8Encode_singleton]
      simp [utf8Len] at ih ⊢
      exact ih

/-- The string is cut below its size. -/
theorem gives_genString {size : Nat} :
    Gives (genString size) (fun v => (utf8 v).length ≤ size - 1) s := by
  rw [Gives]
  exact wp_genString fun cs _ hle => ⟨(utf8_ofList_length cs).trans_le hle, rfl, rfl⟩

theorem gives_genText {max : Nat} (h : 0 < max) :
    Gives (genText max) (fun v => (utf8 v).length ≤ max - 2) s :=
  (gives_genRange h).bind fun size t hsize ht => gives_genString.mono fun v hv => by omega

/-- The drawn bytes are as many as the hash has, so that nothing is unwrapped in vain. -/
theorem gives_genHash (t : HashType) : Gives (genHash t) (fun _ => True) s :=
  gives_genVec.bind fun bytes _ hlen _ => gives_orAbort ⟨⟨bytes, hlen⟩, dif_pos hlen, trivial⟩

/-- Hashes of the size of their kind. -/
theorem gives_genHashes (t : HashType) (count : Nat) : Gives (genHashes t count)
    (fun l => l.length = count ∧ ∀ hash ∈ l, hash.length = t.size) s :=
  gives_collect fun _ _ => (gives_genHash t).bind fun hash _ _ _ => gives_pure hash.property

/-- A number has as many bytes as decimal digits. -/
theorem utf8_toString_length {n digits : Nat} (hpos : 0 < digits) (h : n < 10 ^ digits) :
    (utf8 (toString n)).length ≤ digits := by
  have hlen := (Nat.length_toDigits_le_iff (b := 10) (n := n) (by decide) hpos).mpr h
  have hsum : utf8Len (Nat.toDigits 10 n) ≤ (Nat.toDigits 10 n).length * 1 := by
    refine sum_le_mul fun c hc => ?_
    have hdigit := Nat.isDigit_of_mem_toDigits (by decide) (by decide) hc
    obtain ⟨_, hle⟩ := Char.isDigit_iff_toNat.mp hdigit
    have hle' : c.toNat ≤ 57 := hle
    rw [Char.utf8Size, if_pos]
    exact UInt32.le_iff_toNat_le.mpr (hle'.trans (by decide))
  rw [Nat.toString_eq_ofList_toDigits, utf8_ofList_length]
  omega

/-- Four numbers of three digits, a port of five, and the signs between them. -/
theorem gives_genSocketAddr : Gives genSocketAddr (fun v => (utf8 v).length ≤ 21) s := by
  refine gives_genT.bind fun a _ _ _ => gives_genT.bind fun b _ _ _ => gives_genT.bind fun c _ _ _ =>
    gives_genT.bind fun d _ _ _ => gives_genT.bind fun port _ _ _ => gives_pure ?_
  have byte : ∀ x : UInt8, (utf8 (toString x.toNat)).length ≤ 3 := fun x =>
    utf8_toString_length (by decide) (x.toNat_lt.trans (by decide))
  have hport : (utf8 (toString port.toNat)).length ≤ 5 :=
    utf8_toString_length (by decide) (port.toNat_lt.trans (by decide))
  have hdot : (utf8 ".").length = 1 := rfl
  have hcolon : (utf8 ":").length = 1 := rfl
  have := byte a
  have := byte b
  have := byte c
  have := byte d
  simp only [utf8_append, List.length_append, hdot, hcolon]
  omega

theorem gives_genChainId : Gives genChainId (fun b => b.length = HashType.chainId.size) s :=
  gives_coin (fun _ _ => (gives_genHash .chainId).bind fun hash _ _ _ => gives_pure hash.property)
    fun t _ => (gives_gets _).mono fun _ hb => hb ▸ t.chainId.property

/-! ## Block headers -/

/-- The elements of a fitness that is made up come out of the size of the header. -/
theorem gives_genFitnessLoop {fuel budget remaining : Nat} {fitness : List Bytes}
    (hfuel : budget < fuel) (hremaining : budget ≤ remaining) :
    Gives (genFitnessLoop fuel budget remaining fitness) (fun r =>
      fitnessSize r.1 + r.2 = fitnessSize fitness + remaining ∧ r.2 ≤ remaining ∧
        remaining ≤ r.2 + budget) s := by
  induction fuel generalizing budget remaining fitness s with
  | zero => omega
  | succ fuel ih =>
      rw [genFitnessLoop]
      refine (gives_genRange (by decide)).bind fun size t hsize _ => ?_
      refine gives_genVec.bind fun element u hlen _ => ?_
      split
      next => exact gives_pure ⟨rfl, Nat.le_refl _, Nat.le_add_right _ _⟩
      next hfits =>
        have hsub : subUsize remaining (size + 4) = some (remaining - (size + 4)) := if_pos (by omega)
        refine (gives_orAbort (P := (· = remaining - (size + 4))) ⟨_, hsub, rfl⟩).bind
          fun left v hleft _ => ?_
        have hadd : fitnessSize (fitness ++ [element]) = fitnessSize fitness + (4 + size) := by
          simp [fitnessSize, hlen]
        subst hleft
        refine (ih (by omega) (by omega)).mono fun r hr => ?_
        obtain ⟨hsum, hle, hge⟩ := hr
        rw [hadd] at hsum
        omega

/-- The bytes of the protocol data fit into what the fitness left. -/
theorem gives_genDataLen (remaining : Nat) : Gives (genDataLen remaining) (· ≤ remaining) s := by
  rw [genDataLen]
  split
  next h => exact (gives_genRange h).mono fun n hn => Nat.le_of_lt hn.2
  next => exact gives_pure (Nat.le_refl _)

/-- The size of a block header that is left to its fitness and its data. -/
def headerRoom : Nat := BLOCK_HEADER_MAX_SIZE - 0x1000

/-- A header that is made up fits its limits. -/
theorem gives_genBlockHeader : Gives genBlockHeader BlockHeader.Fits s := by
  have hlimit : 114 + headerRoom ≤ BLOCK_HEADER_MAX_SIZE := by decide
  have hloop : Gives (genFitnessLoop 29 28 headerRoom []) _ s :=
    gives_genFitnessLoop (by decide) (by decide)
  rw [genBlockHeader]
  refine hloop.bind fun r _ h _ => ?_
  obtain ⟨fitness, remaining⟩ := r
  obtain ⟨hsum, _⟩ := h
  dsimp only at hsum ⊢
  refine (gives_genDataLen remaining).bind fun dataLen _ hdataLen _ => ?_
  refine (gives_genHash _).bind fun predecessor _ _ _ => (gives_genHash _).bind fun operationsHash _ _ _ =>
    (gives_genHash _).bind fun context _ _ _ => ?_
  refine gives_genT.bind fun level _ _ _ => gives_genT.bind fun proto _ _ _ =>
    gives_genT.bind fun timestamp _ _ _ => gives_genT.bind fun validationPass _ _ _ => ?_
  refine gives_genVec.bind fun protocolData _ hlen _ => gives_pure ?_
  refine ⟨predecessor.property, operationsHash.property, context.property, ?_⟩
  simp only [BlockHeader.size]
  have hnil : fitnessSize [] = 0 := rfl
  omega

/-- A block that is put behind another one. -/
theorem fits_of_predecessor {h : BlockHeader} (fits : h.Fits) (hash : TypedHash .blockHash) :
    BlockHeader.Fits { h with predecessor := hash.val } :=
  ⟨hash.property, fits.operationsHash, fits.context, fits.size⟩

theorem blockHeader_wf : BlockHeader.schema.Wf := Schema.wf_of_check _ (by decide +kernel)

/-- A header that fits can be written, and so has a hash. -/
theorem gives_blockHash [Blake2b] {h : BlockHeader} (fits : h.Fits) :
    Gives (blockHash h) (fun _ => True) s := by
  have hsize : BlockHeader.schema.size h.toVal = h.size :=
    BlockHeader.schema_size fits.predecessor fits.operationsHash fits.context
  have hlt : BlockHeader.schema.size h.toVal < 2 ^ 64 := by
    rw [hsize]
    exact fits.size.trans_lt (by decide)
  obtain ⟨b, hb, _⟩ := encodes_of_writable BlockHeader.schema blockHeader_wf
    (BlockHeader.writable_iff.mpr fits) hlt
  refine (gives_unwrap (P := fun _ => True) ⟨b, asBytes_iff.mpr hb, trivial⟩).bind fun bytes _ _ _ => ?_
  exact gives_orAbort ⟨⟨_, Blake2b.digest256_length bytes⟩, dif_pos (Blake2b.digest256_length bytes), trivial⟩

/-- Flipping bits makes bytes neither longer nor shorter. -/
theorem gives_flipBits {flips : Nat} {bytes : Bytes} :
    Gives (flipBits flips bytes) (fun b => b.length = bytes.length) s := by
  induction bytes generalizing flips s with
  | nil => exact gives_pure rfl
  | cons b bytes ih =>
      have hflip : Gives (genFlip flips) (fun _ => True) s := by
        rw [genFlip]
        split
        next => exact gives_genBool
        next => exact gives_pure trivial
      rw [flipBits]
      refine hflip.bind fun flip _ _ _ => ?_
      split
      next =>
        refine (gives_genRange (by decide)).bind fun place _ _ _ => ?_
        exact ih.bind fun rest _ hlen _ => gives_pure (congrArg (· + 1) hlen)
      next => exact ih.bind fun rest _ hlen _ => gives_pure (congrArg (· + 1) hlen)

theorem gives_mutateBytes {bytes : Bytes} (h : 0 < bytes.length) :
    Gives (mutateBytes bytes) (fun b => b.length = bytes.length) s :=
  (gives_genRange h).bind fun _ _ _ _ => gives_flipBits

/-- The data are flipped in place or made anew within what is left. -/
theorem gives_mutateProtocolData {bytes : Bytes} {remaining : Nat} :
    Gives (mutateProtocolData bytes remaining)
      (fun b => b.length = bytes.length ∨ b.length ≤ remaining) s := by
  refine gives_genBool.bind fun keep _ _ _ => ?_
  split
  next h => exact (gives_mutateBytes h.2).mono fun _ => .inl
  next =>
    refine (gives_genDataLen remaining).bind fun dataLen _ hle _ => ?_
    exact gives_genVec.mono fun b hlen => .inr (hlen.trans_le hle)

/-! ## Made up messages -/

/-- The number of addresses is within the limit. -/
theorem gives_genAdvertiseMessage : Gives genAdvertiseMessage
    (fun m => AdvertiseMessage.schema.Writable m.toVal) s := by
  refine (gives_genRange (by decide)).bind fun size _ hsize _ => ?_
  refine (gives_collect fun _ _ => gives_genSocketAddr).bind fun ids _ hids _ => gives_pure ?_
  obtain ⟨hlen, hids⟩ := hids
  refine ⟨⟨?_, ?_⟩, trivial⟩
  · intro max hmax
    rw [← Option.some.inj hmax]
    exact hlen.trans_le (Nat.le_of_lt hsize.2)
  · intro id hid
    have hle := hids id hid
    have hlimit : 25 ≤ P2P_POINT_MAX_SIZE := by decide
    refine ⟨unbounded, ?_⟩
    show 4 + (utf8 id).length ≤ _
    omega

theorem gives_genSwapMessage : Gives genSwapMessage (fun m => SwapMessage.schema.Writable m.toVal) s := by
  refine (gives_genRange (by decide)).bind fun size _ hsize _ => ?_
  refine (gives_genHash _).bind fun peerId _ _ _ => ?_
  refine gives_genString.bind fun point _ hpoint _ => gives_pure ?_
  refine ⟨⟨unbounded, ?_⟩, peerId.property, trivial⟩
  have hlimit : P2P_POINT_MAX_LENGTH + 4 = P2P_POINT_MAX_SIZE := rfl
  show 4 + (utf8 point).length ≤ _
  omega

theorem gives_genChainIdMessage {name field : String} : Gives genChainIdMessage
    (fun m => (ChainIdMessage.schema name field).Writable m.toVal) s :=
  gives_genChainId.bind fun _ _ hlen _ => gives_pure ⟨hlen, trivial⟩

/-- The messages ask for less than ten hashes. -/
theorem gives_genHashesMessage {name field : String} (t : HashType) {max : Nat} (hpos : 0 < max)
    (hmax : max ≤ 10) : Gives (genHashesMessage t max)
      (fun m => (HashesMessage.schema name field max t).Writable m.toVal) s := by
  refine (gives_genRange hpos).bind fun count _ hcount _ => ?_
  refine (gives_genHashes t count).bind fun hashes _ h _ => gives_pure ?_
  obtain ⟨hlen, hhashes⟩ := h
  refine ⟨⟨⟨?_, hhashes⟩, ?_, unbounded⟩, trivial⟩
  · intro m hm
    rw [← Option.some.inj hm]
    exact hlen.trans_le (Nat.le_of_lt hcount.2)
  · show (Schema.list (some max) (.hash t)).size hashes < _
    rw [hashes_size _ hhashes, hlen]
    have hsize : t.size ≤ 33 := by cases t <;> decide
    have hmul := Nat.mul_le_mul (Nat.le_of_lt (hcount.2.trans_le hmax)) hsize
    omega

end RandomState

end NodeFuzzer
