import NodeFuzzer.Generator.Blocks
import NodeFuzzer.P2pFuzzer.Session

/-!
# Speaking

What goes over the wire in a call of the fuzzer, whatever it reads in between.  The things that are
said may be messages, or batches of messages in one write; a relation says which bytes they are.

`Speaks` says of a call which of them it has said when it returns.  It goes along with the binds of
the call, so that a loop says what its passes say, and it keeps what the next call needs of the
generator: blocks under their own hashes, and a size of chunks.
-/

namespace NodeFuzzer

variable {Key : Type} [CryptoBox Key]

/-! ## The two directions -/

/-- The two directions of a connection. -/
structure Fuzzer where
  sender : Sender
  receiver : Receiver

/-- The errors of both directions, and of the connection itself. -/
inductive FuzzError where
  | connect
  | write (e : WriteError)
  | read (e : IoError)

namespace Fuzzer

/-- A call that writes. -/
def writes {α : Type} (x : Exec Sender WriteError α) : Exec Fuzzer FuzzError α :=
  Exec.mapErr .write (Exec.onPart sender (fun sender f => { f with sender := sender }) x)

/-- A call that reads. -/
def reads {α : Type} (x : Exec Receiver IoError α) : Exec Fuzzer FuzzError α :=
  Exec.mapErr .read (Exec.onPart receiver (fun receiver f => { f with receiver := receiver }) x)

end Fuzzer

/-! ## What a generator can give -/

theorem Exec.wp_any {σ ε α : Type} (x : Exec σ ε α) (s : σ) :
    Exec.wp x (fun _ _ => True) (fun _ => True) s := by
  unfold Exec.wp
  split <;> trivial

/-- What a toss can give. -/
def Chance.Allows (chance : Chance) : Bool → Prop
  | true => ¬ chance.Never
  | false => chance ≠ .always

namespace RandomState

/-- The generator gives values with `P` only, if it gives one at all. -/
structure OnlyGives {T : Type} (gen : Gen T) (P : T → Prop) : Prop where
  wp : ∀ g, Exec.wp gen (fun a _ => P a) (fun _ => True) g

namespace OnlyGives

variable {T U : Type} {gen : Gen T} {next : T → Gen U} {P : T → Prop} {Q : U → Prop} {a : T}

theorem any (gen : Gen T) : OnlyGives gen fun _ => True := ⟨Exec.wp_any gen⟩

theorem mono {P' : T → Prop} (h : OnlyGives gen P) (le : ∀ a, P a → P' a) : OnlyGives gen P' :=
  ⟨fun g => Exec.wp_mono (h.wp g) (fun a _ => le a) fun _ h => h⟩

theorem pure (h : P a) : OnlyGives (pure a) P := ⟨fun _ => h⟩

theorem abort : OnlyGives Exec.abort P := ⟨fun _ => trivial⟩

theorem bind (h : OnlyGives gen P) (rest : ∀ a, P a → OnlyGives (next a) Q) :
    OnlyGives (gen >>= next) Q :=
  ⟨fun g => Exec.wp_bind.mpr (Exec.wp_mono (h.wp g) (fun a t ha => (rest a ha).wp t) fun _ h => h)⟩

/-- Nothing is known of the value. -/
theorem anyBind (rest : ∀ a, OnlyGives (next a) Q) : OnlyGives (gen >>= next) Q :=
  (any gen).bind fun a _ => rest a

theorem map {f : T → U} (h : ∀ a, Q (f a)) : OnlyGives (f <$> gen) Q := anyBind fun a => pure (h a)

theorem orAbort {o : Option T} (h : ∀ a, o = some a → P a) : OnlyGives (Exec.orAbort o) P := by
  cases o with
  | none => exact abort
  | some a => exact pure (h a rfl)

theorem unwrap {δ : Type} {e : Except δ T} (h : ∀ a, e = .ok a → P a) :
    OnlyGives (Exec.unwrap e) P := by
  cases e with
  | error _ => exact abort
  | ok a => exact pure (h a rfl)

theorem genRange (lo hi : Nat) :
    OnlyGives (RandomState.genRange lo hi) fun n => lo ≤ n ∧ n < hi := by
  refine ⟨fun g => ?_⟩
  by_cases some : lo < hi
  · exact RandomState.wp_genRange some fun n rng hlo hhi => ⟨hlo, hhi⟩
  · rw [RandomState.genRange, Rng.genRange, if_neg some]
    trivial

theorem collect (size : Nat) (h : OnlyGives gen P) :
    OnlyGives (RandomState.collect size gen) fun l => l.length = size ∧ ∀ a ∈ l, P a := by
  refine ⟨fun g => ?_⟩
  have loop : Exec.wp (RandomState.collect size gen)
      (fun l _ => l.length = size ∧ (∀ a ∈ l, P a) ∧ True) (fun _ => True) g :=
    wp_collect (I := fun _ => True) trivial fun t _ =>
      Exec.wp_mono (h.wp t) (fun _ _ ha => ⟨ha, trivial⟩) fun _ h => h
  exact Exec.wp_mono loop (fun l _ hl => ⟨hl.1, hl.2.1⟩) fun _ h => h

theorem toss (chance : Chance) : OnlyGives chance.toss chance.Allows := by
  cases chance with
  | always => exact pure fun never => Chance.noConfusion never
  | below pInt =>
      refine ⟨fun g => wp_draws ?_⟩
      rw [Exec.wp_bind]
      refine Rng.wp_draw fun v rng => ?_
      rw [Exec.wp_pure]
      cases reply : decide (v % 2 ^ 64 < pInt) with
      | false => exact Chance.noConfusion
      | true =>
          intro never
          cases never
          simp at reply

end OnlyGives

end RandomState

/-! ## Writing keeps the blocks -/

namespace Sender

variable [Blake2b]

/-- What a call that writes may do to the blocks of the generator. -/
def Caches (s t : Sender) : Prop := RandomState.Caches s.generator t.generator

instance : Std.Refl Caches := ⟨fun s => .refl s.generator⟩

instance : IsTrans Sender Caches :=
  ⟨fun _ _ _ first second => RandomState.Caches.trans first second⟩

theorem caches_draws {α : Type} {x : Gen α} (h : Exec.Steps RandomState.Caches x) :
    Exec.Steps Caches (draws x) :=
  Exec.Steps.mapErr fun s => h s.generator

theorem caches_chance (chance : Chance) : Exec.Steps RandomState.Caches chance.toss := by
  cases chance with
  | always => exact Exec.steps_pure true
  | below pInt => exact RandomState.caches_draws _

theorem caches_toss (chance : Chance) : Exec.Steps Caches (draws chance.toss) :=
  caches_draws (caches_chance chance)

theorem caches_writeSlices (options : ChunkOptions) (incompleteSend : Bool) (chunks : List Bytes) :
    Exec.Steps Caches (writeSlices options incompleteSend chunks) := by
  induction chunks with
  | nil => exact Exec.steps_pure ()
  | cons chunk chunks ih =>
      have written : Exec.Steps Caches (onStream (TcpSink.writeAll chunk)) :=
        fun s => .refl s.generator
      refine written.bind fun _ => ?_
      split
      next => exact Exec.steps_pure ()
      next => exact (caches_toss _).bind fun _ => ih

theorem caches_writeBytes (options : ChunkOptions) (bytes : Bytes) :
    Exec.Steps Caches (writeBytes options bytes) := by
  refine (caches_toss _).bind fun split => Exec.Steps.bind ?_ fun chunks =>
    (caches_toss _).bind fun _ => caches_writeSlices _ _ _
  cases split with
  | false => exact Exec.steps_pure _
  | true => exact caches_draws (RandomState.caches_genByteChunks bytes)

theorem caches_flipBits (n : Nat) (bytes : Bytes) :
    Exec.Steps RandomState.Caches (flipBits n bytes) := by
  induction bytes generalizing n with
  | nil => cases n <;> exact Exec.steps_pure _
  | cons b bytes ih =>
      cases n with
      | zero => exact (ih 0).bind fun _ => Exec.steps_pure _
      | succ n =>
          refine (RandomState.caches_genT Bool).bind fun flip => ?_
          split
          next =>
            exact (RandomState.caches_genRange 0 8).bind fun _ => (ih n).bind fun _ =>
              Exec.steps_pure _
          next => exact (ih _).bind fun _ => Exec.steps_pure _

theorem caches_mutate (bytes : Bytes) : Exec.Steps RandomState.Caches (mutate bytes) := by
  have drawn : Exec.Steps RandomState.Caches (flips bytes.length) := by
    unfold flips
    split
    next => exact (RandomState.caches_genRange _ _).bind fun _ => Exec.steps_pure _
    next => exact Exec.steps_pure 0
  exact drawn.bind fun _ => caches_flipBits _ _

theorem caches_sealChunks (split : Bool) (bytes : Bytes) (key : Key) (nonce : Nonce) :
    Exec.Steps RandomState.Caches (sealChunks split bytes key nonce) := by
  cases split with
  | false => exact RandomState.caches_sealPieces key _ nonce
  | true => exact RandomState.caches_genChunks bytes key nonce

theorem caches_forEach {α : Type} {f : α → Exec Sender WriteError Unit} {l : List α}
    (h : ∀ a, Exec.Steps Caches (f a)) : Exec.Steps Caches (Exec.forEach f l) := by
  induction l with
  | nil => exact Exec.steps_pure ()
  | cons a l ih => exact (h a).bind fun _ => ih

theorem caches_writeSealed (options : ChunkOptions) (bytes : Bytes) (key : Key) :
    Exec.Steps Caches (writeSealed options bytes key) := by
  refine (caches_toss _).bind fun split => (Exec.steps_gets _).bind fun nonce =>
    (caches_draws (caches_sealChunks split bytes key nonce)).bind fun chunks => ?_
  refine Exec.Steps.bind (Exec.steps_modify fun s => .refl s.generator) fun _ => ?_
  exact caches_forEach fun chunk => caches_writeBytes options chunk.raw

theorem caches_writeBytesEncrypted (options : ChunkOptions) (bytes : Bytes) (key : Key) :
    Exec.Steps Caches (writeBytesEncrypted options bytes key) := by
  refine (caches_toss _).bind fun flip => Exec.Steps.bind ?_ fun bytes =>
    caches_writeSealed options bytes key
  cases flip with
  | false => exact Exec.steps_pure bytes
  | true => exact caches_draws (caches_mutate bytes)

theorem caches_writeMsg (options : ChunkOptions) (asBytes : Except BinaryWriterError Bytes)
    (key : Key) : Exec.Steps Caches (writeMsg options asBytes key) :=
  (RandomState.steps_unwrap _).bind fun _ => caches_writeBytesEncrypted _ _ _

/-! ## Speaking -/

variable {U : Type}

/-- Things were said one after the other, each as its bytes.  What the wire got of one is known as
long as there are nonces left. -/
inductive Says (encodes : U → Bytes → Prop) (options : ChunkOptions) (key : Key) :
    Sender → List U → Sender → Prop
  | nothing {s t : Sender} : t.nonce = s.nonce → t.stream.sent = s.stream.sent →
      Says encodes options key s [] t
  | say {s t u : Sender} {thing : U} {bytes : Bytes} {rest : List U} : encodes thing bytes →
      (s.nonce.value + bytes.length ≤ 2 ^ 192 → Faulty options key bytes s t) →
      Says encodes options key t rest u → Says encodes options key s (thing :: rest) u

/-- Things were said one after the other, the last one perhaps only in part, and then the call
failed. -/
inductive Breaks (encodes : U → Bytes → Prop) (options : ChunkOptions) (key : Key) :
    Sender → List U → Sender → Prop
  | between {s t : Sender} : t.stream.sent = s.stream.sent → Breaks encodes options key s [] t
  | within {s t : Sender} {thing : U} {bytes : Bytes} : encodes thing bytes →
      (s.nonce.value + bytes.length ≤ 2 ^ 192 → Interrupted options key bytes s t) →
      Breaks encodes options key s [thing] t
  | later {s t u : Sender} {thing : U} {bytes : Bytes} {rest : List U} : encodes thing bytes →
      (s.nonce.value + bytes.length ≤ 2 ^ 192 → Faulty options key bytes s t) →
      Breaks encodes options key t rest u → Breaks encodes options key s (thing :: rest) u

/-- What a call that writes needs of the generator. -/
structure Ready (options : ChunkOptions) (s : Sender) : Prop where
  authentic : s.generator.Authentic
  maxChunkSize : options.splitChunks.Never ∨ 1 ≤ s.generator.maxChunkSize

/-- A call that returns has said things with `P`, and one that fails has begun to say things with
`F`, as whatever is said on the way is.  It works on a state that has a part to write with. -/
def Speaks {σ ε α : Type} (encodes : U → Bytes → Prop) (part : σ → Sender) (options : ChunkOptions)
    (key : Key) (x : Exec σ ε α) (P : α → List U → Prop) (F : List U → Prop) : Prop :=
  F [] → ∀ s, Ready options (part s) → Exec.wp x
    (fun a t => ∃ said, P a said ∧ F said ∧ Says encodes options key (part s) said (part t) ∧
      Caches (part s) (part t))
    (fun t => ∃ said, F said ∧ Breaks encodes options key (part s) said (part t)) s

variable {encodes : U → Bytes → Prop} {options : ChunkOptions} {key : Key} {s t u : Sender}

omit [Blake2b] in
/-- What is written depends on the nonce and the bytes that were sent before. -/
theorem Faulty.start {bytes : Bytes} (nonce : t.nonce = s.nonce)
    (sent : t.stream.sent = s.stream.sent) (faulty : Faulty options key bytes t u) :
    Faulty options key bytes s u := by
  obtain ⟨mutated, wire, flipped, kept, hwire, hsent⟩ := faulty
  exact ⟨mutated, wire, flipped, kept, nonce ▸ hwire, sent ▸ hsent⟩

omit [Blake2b] in
theorem Interrupted.start {bytes : Bytes} (nonce : t.nonce = s.nonce)
    (sent : t.stream.sent = s.stream.sent) (interrupted : Interrupted options key bytes t u) :
    Interrupted options key bytes s u := by
  obtain ⟨mutated, wire, next, part, flipped, kept, hwire, isPrefix, hsent⟩ := interrupted
  exact ⟨mutated, wire, next, part, flipped, kept, nonce ▸ hwire, isPrefix, sent ▸ hsent⟩

omit [Blake2b] in
theorem Says.start {said : List U} (nonce : t.nonce = s.nonce)
    (sent : t.stream.sent = s.stream.sent) (spoken : Says encodes options key t said u) :
    Says encodes options key s said u := by
  cases spoken with
  | nothing nonce' sent' => exact .nothing (nonce'.trans nonce) (sent'.trans sent)
  | say encoded written rest =>
      exact .say encoded (fun room => (written (nonce ▸ room)).start nonce sent) rest

omit [Blake2b] in
theorem Says.append {said said' : List U} (first : Says encodes options key s said t)
    (second : Says encodes options key t said' u) :
    Says encodes options key s (said ++ said') u := by
  induction first with
  | nothing nonce sent => exact second.start nonce sent
  | say encoded written _ ih => exact .say encoded written (ih second)

omit [Blake2b] in
theorem Breaks.start {said : List U} (nonce : t.nonce = s.nonce)
    (sent : t.stream.sent = s.stream.sent) (broken : Breaks encodes options key t said u) :
    Breaks encodes options key s said u := by
  cases broken with
  | between sent' => exact .between (sent'.trans sent)
  | within encoded written =>
      exact .within encoded fun room => (written (nonce ▸ room)).start nonce sent
  | later encoded written rest =>
      exact .later encoded (fun room => (written (nonce ▸ room)).start nonce sent) rest

omit [Blake2b] in
/-- What is said before a failure comes first. -/
theorem Says.breaks {said said' : List U} (first : Says encodes options key s said t)
    (second : Breaks encodes options key t said' u) :
    Breaks encodes options key s (said ++ said') u := by
  induction first with
  | nothing nonce sent => exact second.start nonce sent
  | say encoded written _ ih => exact .later encoded written (ih second)

theorem Ready.caches (ready : Ready options s) (caches : Caches s t) : Ready options t := by
  refine ⟨ready.authentic.caches caches, ?_⟩
  rw [caches.maxChunkSize]
  exact ready.maxChunkSize

namespace Speaks

variable {σ ε α β : Type} {part : σ → Sender} {x : Exec σ ε α} {P : α → List U → Prop}
  {F : List U → Prop}

theorem mono {Q : α → List U → Prop} (h : Speaks encodes part options key x P F)
    (le : ∀ a said, P a said → Q a said) : Speaks encodes part options key x Q F := by
  intro begins s ready
  refine Exec.wp_mono (h begins s ready) ?_ fun _ h => h
  intro a t h
  obtain ⟨said, hP, rest⟩ := h
  exact ⟨said, le a said hP, rest⟩

/-- Less is known of what a call has begun to say. -/
theorem begun {G : List U → Prop} (h : Speaks encodes part options key x P F) (start : F [])
    (le : ∀ said, F said → G said) : Speaks encodes part options key x P G := by
  intro _ s ready
  refine Exec.wp_mono (h start s ready) ?_ ?_
  · intro a t h
    obtain ⟨said, hP, hF, rest⟩ := h
    exact ⟨said, hP, le said hF, rest⟩
  · intro t h
    obtain ⟨said, hF, broken⟩ := h
    exact ⟨said, le said hF, broken⟩

theorem nothing {a : α} (h : P a []) :
    Speaks encodes part options key (pure a : Exec σ ε α) P F := by
  intro begins s _
  exact ⟨[], h, begins, .nothing rfl rfl, .refl _⟩

theorem abort : Speaks encodes part options key (Exec.abort : Exec σ ε α) P F := by
  intro begins s _
  exact ⟨[], begins, .between rfl⟩

/-- What is said first comes first. -/
theorem bind {f : α → Exec σ ε β} {Q : β → List U → Prop}
    (first : Speaks encodes part options key x P F)
    (second : ∀ a said, P a said → Speaks encodes part options key (f a)
      (fun b said' => Q b (said ++ said')) fun said' => F (said ++ said')) :
    Speaks encodes part options key (x >>= f) Q F := by
  intro begins s ready
  rw [Exec.wp_bind]
  refine Exec.wp_mono (first begins s ready) ?_ fun _ h => h
  intro a t h
  obtain ⟨said, hP, hF, here, caches⟩ := h
  have begins' : F (said ++ []) := by rwa [List.append_nil]
  refine Exec.wp_mono (second a said hP begins' t (ready.caches caches)) ?_ ?_
  · intro b u h
    obtain ⟨said', hQ, hF', there, caches'⟩ := h
    exact ⟨said ++ said', hQ, hF', here.append there, caches.trans caches'⟩
  · intro u h
    obtain ⟨said', hF', broken⟩ := h
    exact ⟨said ++ said', hF', here.breaks broken⟩

/-- A call that says nothing comes before another one. -/
theorem silentBind {f : α → Exec σ ε β} {R : α → Prop} {Q : β → List U → Prop}
    (silent : Speaks encodes part options key x (fun a said => said = [] ∧ R a) F)
    (rest : ∀ a, R a → Speaks encodes part options key (f a) Q F) :
    Speaks encodes part options key (x >>= f) Q F := by
  refine silent.bind fun a said drawn => ?_
  obtain ⟨rfl, ha⟩ := drawn
  exact rest a ha

/-- A loop says what its passes say. -/
theorem each {f : α → Exec σ ε Unit} {l : List α} {R : α → List U → Prop}
    (begins : ∀ done rest parts, l = done ++ rest → List.Forall₂ R done parts → F parts.flatten)
    (h : ∀ a ∈ l, ∀ G : List U → Prop, (∀ said, R a said → G said) →
      Speaks encodes part options key (f a) (fun _ said => R a said) G) :
    Speaks encodes part options key (Exec.forEach f l) (fun _ said =>
      ∃ parts, List.Forall₂ R l parts ∧ said = parts.flatten) F := by
  induction l generalizing F with
  | nil => exact nothing ⟨[], .nil, rfl⟩
  | cons a l ih =>
      refine (h a List.mem_cons_self F fun said hR => ?_).bind fun _ here hhere => ?_
      · have one := begins [a] l [said] rfl (.cons hR .nil)
        rwa [List.flatten_singleton] at one
      refine (ih ?_ fun b mem => h b (List.mem_cons_of_mem a mem)).mono fun _ said rest => ?_
      · intro done rest parts split hparts
        exact begins (a :: done) rest (here :: parts) (by rw [split]; rfl) (.cons hhere hparts)
      · obtain ⟨parts, hparts, rfl⟩ := rest
        exact ⟨here :: parts, .cons hhere hparts, rfl⟩

/-- A value that has to be there. -/
theorem unwrap {δ : Type} {e : Except δ α} :
    Speaks encodes part options key (Exec.unwrap e : Exec σ ε α) (fun a said =>
      said = [] ∧ e = .ok a) F := by
  cases e with
  | error _ => exact abort
  | ok a => exact nothing ⟨rfl, rfl⟩

/-- A call of the generator says nothing. -/
theorem draws {x : Gen α} {R : α → Prop} (caches : Exec.Steps RandomState.Caches x)
    (h : ∀ g : RandomState, g.Authentic → Exec.wp x (fun a _ => R a) (fun _ => True) g) :
    Speaks encodes id options key (Sender.draws x) (fun a said => said = [] ∧ R a) F := by
  intro begins s ready
  refine wp_draws ?_
  refine Exec.wp_mono (Exec.wp_and (caches.wp s.generator) (h s.generator ready.authentic)) ?_ ?_
  · intro a g h
    exact ⟨[], ⟨rfl, h.2⟩, begins, .nothing rfl rfl, h.1⟩
  · intro g _
    exact ⟨[], begins, .between rfl⟩

theorem gives {x : Gen α} {R : α → Prop} (caches : Exec.Steps RandomState.Caches x)
    (h : RandomState.OnlyGives x R) :
    Speaks encodes id options key (Sender.draws x) (fun a said => said = [] ∧ R a) F :=
  draws caches fun g _ => h.wp g

/-- The bytes of one thing are written. -/
theorem write (correct : CryptoBox.Correct Key) {thing : U} {bytes : Bytes}
    (encoded : encodes thing bytes) (said : F [thing]) :
    Speaks encodes id options key (writeBytesEncrypted options bytes key)
      (fun _ said => said = [thing]) F := by
  intro _ s ready
  have caches := (caches_writeBytesEncrypted options bytes key).wp s
  have written : Exec.wp (writeBytesEncrypted options bytes key)
      (fun _ t => s.nonce.value + bytes.length ≤ 2 ^ 192 → Faulty options key bytes s t)
      (fun t => s.nonce.value + bytes.length ≤ 2 ^ 192 → Interrupted options key bytes s t) s := by
    by_cases room : s.nonce.value + bytes.length ≤ 2 ^ 192
    · exact Exec.wp_mono (wp_writeBytesEncrypted correct ready.maxChunkSize room)
        (fun _ _ faulty _ => faulty) fun _ failed _ => failed.1
    · exact Exec.wp_mono caches (fun _ _ _ enough => absurd enough room) fun _ _ enough =>
        absurd enough room
  refine Exec.wp_mono (Exec.wp_and caches written) ?_ ?_
  · intro _ t h
    exact ⟨[thing], rfl, said, .say encoded h.2 (.nothing rfl rfl), h.1⟩
  · intro t h
    exact ⟨[thing], said, .within encoded h.2⟩

/-- A message is written. -/
theorem message (correct : CryptoBox.Correct Key)
    {asBytes : Except BinaryWriterError Bytes} {thing : U}
    (encoded : ∀ bytes, asBytes = .ok bytes → encodes thing bytes) (said : F [thing]) :
    Speaks encodes id options key (writeMsg options asBytes key)
      (fun _ said => said = [thing]) F :=
  silentBind unwrap fun bytes hb => write correct (encoded bytes hb) said

/-- A call that writes, as one of both directions. -/
theorem writes {x : Exec Sender WriteError α} (h : Speaks encodes id options key x P F) :
    Speaks encodes Fuzzer.sender options key (Fuzzer.writes x) P F := by
  intro begins f ready
  exact (Exec.wp_mapErr _ _).mpr ((Exec.wp_onPart _ _).mpr (h begins f.sender ready))

/-- A call that reads says nothing. -/
theorem reads (x : Exec Receiver IoError α) :
    Speaks encodes Fuzzer.sender options key (Fuzzer.reads x)
      (fun _ said => said = [] ∧ True) F := by
  intro begins f _
  refine (Exec.wp_mapErr _ _).mpr ((Exec.wp_onPart _ _).mpr ?_)
  refine Exec.wp_mono (Exec.wp_any x f.receiver) (fun _ _ _ => ?_) fun _ _ => ?_
  · exact ⟨[], ⟨rfl, trivial⟩, begins, .nothing rfl rfl, .refl _⟩
  · exact ⟨[], begins, .between rfl⟩

end Speaks

/-- A toss says nothing. -/
theorem speaks_toss {F : List U → Prop} (chance : Chance) :
    Speaks encodes id options key (draws chance.toss)
      (fun b said => said = [] ∧ chance.Allows b) F :=
  Speaks.gives (caches_chance chance) (.toss chance)

end Sender

/-! ## Calls of both directions -/

namespace Fuzzer

variable [Blake2b] {α : Type}

/-- What a call may do to the blocks of the generator. -/
def Caches (f f' : Fuzzer) : Prop := Sender.Caches f.sender f'.sender

instance : Std.Refl Caches := ⟨fun f => .refl f.sender.generator⟩

instance : IsTrans Fuzzer Caches :=
  ⟨fun _ _ _ first second => RandomState.Caches.trans first second⟩

theorem caches_writes {x : Exec Sender WriteError α} (h : Exec.Steps Sender.Caches x) :
    Exec.Steps Caches (writes x) :=
  Exec.Steps.mapErr fun f => h f.sender

theorem caches_reads (x : Exec Receiver IoError α) : Exec.Steps Caches (reads x) :=
  Exec.Steps.mapErr fun f => .refl f.sender.generator

theorem caches_draws {x : Gen α} (h : Exec.Steps RandomState.Caches x) :
    Exec.Steps Caches (writes (Sender.draws x)) :=
  caches_writes (Sender.caches_draws h)

end Fuzzer

end NodeFuzzer
