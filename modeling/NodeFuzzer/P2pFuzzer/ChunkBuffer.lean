import NodeFuzzer.Library.Exec
import NodeFuzzer.Messages.BinaryChunk

/-!
# Reading chunks

`ChunkBuffer` of the fuzzer collects what a peer sends and hands it out chunk by chunk.  A
read of the stream gives some of the bytes that are still to come, at least one as long as
there are any and there is room for them; how many is decided by the stream.  Behind the last
byte it gives nothing, or an error.

A chunk whose content has `0xFFFF` bytes does not fit into the buffer.  All others are
returned in order, however the bytes arrive (`readChunks_chunks`).
-/

namespace NodeFuzzer

/-! ## The stream -/

/-- `ErrorKind`, as far as `read_chunk` and `read_msg` return it. -/
inductive IoError where
  /-- `UnexpectedEof`, with "zero length read". -/
  | zeroLengthRead
  /-- `Other`, with "decrypt error". -/
  | decryptError
  /-- What the stream itself returns, such as a reset, by its number. -/
  | os (code : Nat)
deriving DecidableEq

/-- The bytes a peer has still to deliver, the numbers that decide how many each read
delivers, and what the reads behind the last byte give: nothing or an error. -/
structure TcpStream where
  bytes : Bytes
  amounts : Nat → Nat
  endings : Nat → Option IoError

/-- The stream after one more read behind its last byte. -/
def TcpStream.pastEnd (stream : TcpStream) : TcpStream :=
  { stream with endings := fun k => stream.endings (k + 1) }

/-- `read` into a slice of a size.  Nothing is read into an empty slice. -/
def TcpStream.read (size : Nat) : Exec TcpStream IoError Bytes := fun stream =>
  if size = 0 then (.ok [], stream)
  else if stream.bytes = [] then
    match stream.endings 0 with
    | none => (.ok [], stream.pastEnd)
    | some e => (.err e, stream.pastEnd)
  else
    let n := 1 + stream.amounts 0 % min size stream.bytes.length
    (.ok (stream.bytes.take n),
      { stream with bytes := stream.bytes.drop n, amounts := fun k => stream.amounts (k + 1) })

/-! ## The buffer -/

/-- The size of the buffer. -/
def BUFFER_SIZE : Nat := 0x10000

/-- The size of the header of a chunk. -/
def HEADER_LENGTH : Nat := 2

/-- `ChunkBuffer`.  Its data is an array of a fixed size. -/
structure ChunkBuffer where
  len : Nat
  data : Bytes
  size : data.length = BUFFER_SIZE

/-- `ChunkBuffer::default`. -/
def ChunkBuffer.default : ChunkBuffer := ⟨0, List.replicate BUFFER_SIZE 0, List.length_replicate⟩

/-- The loop that moves the places from `i` on down by `rawLen`; `none` is a panic. -/
def shift (rawLen : Nat) : Nat → Nat → Bytes → Option Bytes
  | 0, _, data => some data
  | n + 1, i, data =>
      match data[i]? with
      | some b => shift rawLen n (i + 1) (data.set (i - rawLen) b)
      | none => none

theorem shift_length {rawLen n i : Nat} {data data' : Bytes} (h : shift rawLen n i data = some data') :
    data'.length = data.length := by
  induction n generalizing i data with
  | zero =>
      cases h
      rfl
  | succ n ih =>
      rw [shift] at h
      split at h
      next => rw [ih h, List.length_set]
      next => cases h

/-- A buffer and the stream it reads from. -/
structure Connection where
  buffer : ChunkBuffer
  stream : TcpStream

namespace Connection

/-- Hand out the first `rawLen` bytes and move the others to the front. -/
def splitOff (rawLen : Nat) : Exec ChunkBuffer IoError Bytes := fun b =>
  match h : shift rawLen (b.len - rawLen) rawLen b.data with
  | some data => (.ok (b.data.take rawLen), ⟨b.len - rawLen, data, by rw [shift_length h, b.size]⟩)
  | none => (.panic, b)

/-- The part of `read_chunk` before the read: the chunk at the front, when it is complete. -/
def takeChunk : Exec ChunkBuffer IoError (Option BinaryChunk) := fun b =>
  let rawLen := BinaryChunk.getU16 b.data + HEADER_LENGTH
  if b.len ≥ HEADER_LENGTH ∧ b.len ≥ rawLen then (do
    let chunk ← splitOff rawLen
    let chunk ← Exec.unwrap (BinaryChunk.tryFrom chunk)
    pure (some chunk)) b
  else (.ok none, b)

theorem store_length {data new : Bytes} {len : Nat} (size : data.length = BUFFER_SIZE)
    (h : len + new.length ≤ BUFFER_SIZE) :
    (data.take len ++ new ++ data.drop (len + new.length)).length = BUFFER_SIZE := by
  simp only [List.length_append, List.length_take, List.length_drop]
  omega

/-- `self.len += stream.read(&mut self.data[self.len..])`. -/
def fill : Exec Connection IoError Unit := fun c =>
  if c.buffer.len ≤ BUFFER_SIZE then
    match TcpStream.read (BUFFER_SIZE - c.buffer.len) c.stream with
    | (.ok new, stream) =>
        if h : c.buffer.len + new.length ≤ BUFFER_SIZE then
          (.ok (), ⟨⟨c.buffer.len + new.length, _, store_length c.buffer.size h⟩, stream⟩)
        else (.panic, c)
    | (.err e, stream) => (.err e, { c with stream := stream })
    | (.panic, stream) => (.panic, { c with stream := stream })
  else (.panic, c)

/-- The part of a call that looks for a chunk, on a connection. -/
def look : Exec Connection IoError (Option BinaryChunk) :=
  Exec.onPart buffer (fun b c => { c with buffer := b }) takeChunk

/-- `read_chunk`, with at most `fuel` passes of its loop. -/
def readChunk : Nat → Nat → Exec Connection IoError BinaryChunk
  | 0, _ => Exec.abort
  | fuel + 1, retry => do
      let chunk ← look
      match chunk with
      | some chunk => pure chunk
      | none => do
          fill
          let len ← Exec.gets fun c => c.buffer.len
          if len = 0 then
            if retry > 2 then Exec.fail .zeroLengthRead else readChunk fuel (retry + 1)
          else readChunk fuel retry

/-- A number of calls, one after the other. -/
def readChunks (fuel : Nat) : Nat → Exec Connection IoError (List BinaryChunk)
  | 0 => pure []
  | n + 1 => do
      let chunk ← readChunk fuel 0
      let chunks ← readChunks fuel n
      pure (chunk :: chunks)

/-! ## What the parts do -/

/-- The bytes that were received and not yet returned. -/
def pending (c : Connection) : Bytes := c.buffer.data.take c.buffer.len

theorem pending_length {c : Connection} (h : c.buffer.len ≤ BUFFER_SIZE) :
    c.pending.length = c.buffer.len := by
  rw [pending, List.length_take, c.buffer.size]
  omega

theorem shift_get {rawLen n i : Nat} {data : Bytes} (hpos : 0 < rawLen) (hle : rawLen ≤ i)
    (hfits : i + n ≤ data.length) : ∃ data', shift rawLen n i data = some data' ∧ ∀ j,
      data'[j]? = if i - rawLen ≤ j ∧ j < i - rawLen + n then data[j + rawLen]? else data[j]? := by
  induction n generalizing i data with
  | zero =>
      refine ⟨data, rfl, fun j => ?_⟩
      rw [if_neg (by omega)]
  | succ n ih =>
      have hi : i < data.length := by omega
      have hfits' : i + 1 + n ≤ (data.set (i - rawLen) (data.get ⟨i, hi⟩)).length := by
        rw [List.length_set]
        omega
      obtain ⟨data', hrun, hget⟩ := ih (Nat.le_succ_of_le hle) hfits'
      refine ⟨data', ?_, fun j => ?_⟩
      · rw [shift, List.getElem?_eq_getElem hi]
        exact hrun
      · -- The place that was written is below all that are still to be read.
        rw [hget j]
        by_cases hj : j = i - rawLen
        · have hsame : j + rawLen = i := by omega
          have hlt : j < data.length := by omega
          rw [if_neg (by omega), if_pos (by omega), ← hj, List.getElem?_set_self hlt, hsame,
            List.getElem?_eq_getElem hi]
          rfl
        · have hset : (data.set (i - rawLen) (data.get ⟨i, hi⟩))[j]? = data[j]? :=
            List.getElem?_set_ne (Ne.symm hj)
          by_cases hin : i + 1 - rawLen ≤ j ∧ j < i + 1 - rawLen + n
          · have hne : i - rawLen ≠ j + rawLen := by omega
            rw [if_pos hin, if_pos (by omega), List.getElem?_set_ne hne]
          · rw [if_neg hin, if_neg (by omega), hset]

/-- The bytes that were handed out are gone from the front, and no others. -/
theorem splitOff_eq {b : ChunkBuffer} {rawLen : Nat} (hpos : 0 < rawLen) (hle : rawLen ≤ b.len)
    (hlen : b.len ≤ BUFFER_SIZE) : ∃ b', splitOff rawLen b = (.ok (b.data.take rawLen), b') ∧
      b'.len = b.len - rawLen ∧ b'.data.take b'.len = (b.data.take b.len).drop rawLen := by
  have hfits : rawLen + (b.len - rawLen) ≤ b.data.length := by
    rw [b.size]
    omega
  obtain ⟨data, hrun, hget⟩ := shift_get hpos le_rfl hfits
  refine ⟨⟨b.len - rawLen, data, by rw [shift_length hrun, b.size]⟩, ?_, rfl, ?_⟩
  · unfold splitOff
    split
    next data' h =>
      rw [hrun] at h
      cases h
      rfl
    next h => simp [hrun] at h
  · refine List.ext_getElem? fun j => ?_
    rw [List.getElem?_drop, List.getElem?_take, List.getElem?_take, hget j, Nat.sub_self,
      Nat.zero_add, Nat.add_comm rawLen j]
    by_cases hj : j < b.len - rawLen
    · rw [if_pos hj, if_pos ⟨Nat.zero_le _, hj⟩, if_pos (by omega)]
    · rw [if_neg hj, if_neg (by omega)]

theorem getU16_take {data : Bytes} {n : Nat} (h : 2 ≤ n) :
    BinaryChunk.getU16 (data.take n) = BinaryChunk.getU16 data := by
  rw [BinaryChunk.getU16, BinaryChunk.getU16, List.take_take, Nat.min_eq_left h]

theorem getU16_append {x y : Bytes} (h : 2 ≤ x.length) :
    BinaryChunk.getU16 (x ++ y) = BinaryChunk.getU16 x := by
  rw [BinaryChunk.getU16, BinaryChunk.getU16, List.take_append_of_le_length h]

/-- A complete chunk at the front is handed out. -/
theorem takeChunk_some {b : ChunkBuffer} {chunk : BinaryChunk} {rest : Bytes}
    (hlen : b.len ≤ BUFFER_SIZE) (h : b.data.take b.len = chunk.raw ++ rest) :
    ∃ b', takeChunk b = (.ok (some chunk), b') ∧ b'.len ≤ BUFFER_SIZE ∧
      b'.data.take b'.len = rest := by
  have hraw := chunk.length_raw
  have htotal : b.len = chunk.raw.length + rest.length := by
    rw [← List.length_append, ← h, List.length_take, b.size]
    omega
  have hsize : BinaryChunk.getU16 b.data + HEADER_LENGTH = chunk.raw.length := by
    have hu16 : BinaryChunk.getU16 b.data = chunk.content.length := by
      rw [← getU16_take (n := b.len) (by omega), h, getU16_append (by omega), chunk.getU16_raw]
    rw [hu16, hraw, HEADER_LENGTH]
  obtain ⟨b', hrun, hlen', hdata⟩ := splitOff_eq (b := b)
    (show 0 < chunk.raw.length by omega) (by omega) hlen
  have hfront : b.data.take chunk.raw.length = chunk.raw := by
    have := congrArg (List.take chunk.raw.length) h
    rw [List.take_take, Nat.min_eq_left (by omega), List.take_left] at this
    exact this
  refine ⟨b', ?_, by omega, ?_⟩
  · have hcond : b.len ≥ HEADER_LENGTH ∧ b.len ≥ chunk.raw.length := by
      rw [HEADER_LENGTH]
      omega
    simp only [takeChunk, hsize, if_pos hcond]
    rw [Exec.bind_ok hrun, hfront, chunk.tryFrom_raw]
    rfl
  · rw [hdata, h, List.drop_left]

/-- Nothing is handed out while the chunk at the front is not complete. -/
theorem takeChunk_none {b : ChunkBuffer} {chunk : BinaryChunk} {more rest : Bytes}
    (hlen : b.len ≤ BUFFER_SIZE) (h : b.data.take b.len ++ more = chunk.raw ++ rest)
    (hshort : b.len < chunk.raw.length) : takeChunk b = (.ok none, b) := by
  have hraw := chunk.length_raw
  have htake : (b.data.take b.len).length = b.len := by
    rw [List.length_take, b.size]
    omega
  have hcond : ¬ (b.len ≥ HEADER_LENGTH ∧ b.len ≥ BinaryChunk.getU16 b.data + HEADER_LENGTH) := by
    intro h
    obtain ⟨htwo, hall⟩ := h
    unfold HEADER_LENGTH at htwo hall
    have hu16 : BinaryChunk.getU16 b.data = chunk.content.length := by
      rw [← getU16_take (n := b.len) htwo, ← getU16_append (y := more) (by omega), h,
        getU16_append (by omega), chunk.getU16_raw]
    omega
  simp only [takeChunk, if_neg hcond]

/-- A read takes bytes from the front of the stream, or fails behind the last one. -/
theorem read_cases (stream : TcpStream) (size : Nat) :
    (∃ n stream', TcpStream.read size stream = (.ok (stream.bytes.take n), stream') ∧
        stream'.bytes = stream.bytes.drop n ∧ n ≤ size ∧ n ≤ stream.bytes.length ∧
        (0 < size → stream.bytes ≠ [] → 0 < n) ∧
        (stream.bytes ≠ [] ∨ size = 0 → stream'.endings = stream.endings) ∧
        (stream.bytes = [] → 0 < size → stream.endings 0 = none ∧ stream' = stream.pastEnd)) ∨
      ∃ e, stream.bytes = [] ∧ 0 < size ∧ stream.endings 0 = some e ∧
        TcpStream.read size stream = (.err e, stream.pastEnd) := by
  unfold TcpStream.read
  by_cases hsize : size = 0
  · refine .inl ⟨0, stream, by simp [hsize], rfl, Nat.zero_le _, Nat.zero_le _, ?_, fun _ => rfl, ?_⟩
    · intro pos
      omega
    · intro _ pos
      omega
  have hpos := Nat.pos_of_ne_zero hsize
  by_cases hbytes : stream.bytes = []
  · cases hend : stream.endings 0 with
    | none =>
        refine .inl ⟨0, stream.pastEnd, ?_, ?_, Nat.zero_le _, Nat.zero_le _, ?_, ?_, ?_⟩
        · rw [if_neg hsize, if_pos hbytes]
          rfl
        · rfl
        · exact fun _ hne => absurd hbytes hne
        · exact fun h => (h.elim (absurd hbytes) fun h => absurd h hsize)
        · exact fun _ _ => ⟨rfl, rfl⟩
    | some e =>
        refine .inr ⟨e, hbytes, hpos, rfl, ?_⟩
        rw [if_neg hsize, if_pos hbytes]
  · have hlength := List.length_pos_iff.mpr hbytes
    have hlt := Nat.mod_lt (stream.amounts 0)
      (show 0 < min size stream.bytes.length from Nat.lt_min.mpr ⟨hpos, hlength⟩)
    refine .inl ⟨1 + stream.amounts 0 % min size stream.bytes.length,
      ⟨stream.bytes.drop (1 + stream.amounts 0 % min size stream.bytes.length),
        fun k => stream.amounts (k + 1), stream.endings⟩, ?_, rfl, by omega, by omega,
      fun _ _ => by omega, fun _ => rfl, fun h => absurd h hbytes⟩
    rw [if_neg hsize, if_neg hbytes]

/-- A read has moved bytes from the stream to the end of those that are pending. -/
structure Filled (c c' : Connection) : Prop where
  len : c'.buffer.len ≤ BUFFER_SIZE
  same : c'.pending ++ c'.stream.bytes = c.pending ++ c.stream.bytes
  grows : c.buffer.len ≤ c'.buffer.len
  more : c.buffer.len < BUFFER_SIZE → c.stream.bytes ≠ [] → c.buffer.len < c'.buffer.len
  shorter : c'.stream.bytes.length + c'.buffer.len = c.stream.bytes.length + c.buffer.len
  endings : c.stream.bytes ≠ [] ∨ c.buffer.len = BUFFER_SIZE → c'.stream.endings = c.stream.endings
  past : c.stream.bytes = [] → c.buffer.len < BUFFER_SIZE →
    c.stream.endings 0 = none ∧ c'.stream = c.stream.pastEnd

/-- A read fills the buffer, or fails behind the last byte. -/
theorem fill_cases {c : Connection} (hlen : c.buffer.len ≤ BUFFER_SIZE) :
    (∃ c', fill c = (.ok (), c') ∧ Filled c c') ∨
      ∃ e c', c.stream.bytes = [] ∧ c.buffer.len < BUFFER_SIZE ∧ c.stream.endings 0 = some e ∧
        fill c = (.err e, c') := by
  obtain ⟨n, stream', hread, hbytes, hsize, hle, hpos, hsame, hpast⟩ |
    ⟨e, hbytes, hroom, hend, hread⟩ := read_cases c.stream (BUFFER_SIZE - c.buffer.len)
  · refine .inl ?_
    have hn : (c.stream.bytes.take n).length = n := List.length_take_of_le hle
    have hfits : c.buffer.len + (c.stream.bytes.take n).length ≤ BUFFER_SIZE := by
      rw [hn]
      omega
    refine ⟨⟨⟨c.buffer.len + (c.stream.bytes.take n).length, _,
      store_length c.buffer.size hfits⟩, stream'⟩, ?_, ?_, ?_, ?_, ?_, ?_, ?_, ?_⟩
    · simp only [fill, if_pos hlen, hread, dif_pos hfits]
    · show c.buffer.len + (c.stream.bytes.take n).length ≤ BUFFER_SIZE
      omega
    · have htake : (c.buffer.data.take c.buffer.len).length = c.buffer.len := by
        rw [List.length_take, c.buffer.size]
        omega
      have hall : (c.buffer.data.take c.buffer.len ++ c.stream.bytes.take n).length =
          c.buffer.len + (c.stream.bytes.take n).length := by
        rw [List.length_append, htake]
      have hstored : (c.buffer.data.take c.buffer.len ++ c.stream.bytes.take n ++
          c.buffer.data.drop (c.buffer.len + (c.stream.bytes.take n).length)).take
            (c.buffer.len + (c.stream.bytes.take n).length) =
          c.buffer.data.take c.buffer.len ++ c.stream.bytes.take n := List.take_left' hall
      show List.take _ (c.buffer.data.take c.buffer.len ++ c.stream.bytes.take n ++ _) ++
        stream'.bytes = c.buffer.data.take c.buffer.len ++ c.stream.bytes
      rw [hstored, hbytes, List.append_assoc, List.take_append_drop]
    · exact Nat.le_add_right _ _
    · intro hroom hne
      show c.buffer.len < c.buffer.len + (c.stream.bytes.take n).length
      have := hpos (Nat.sub_pos_of_lt hroom) hne
      omega
    · show stream'.bytes.length + (c.buffer.len + (c.stream.bytes.take n).length) = _
      rw [hbytes, List.length_drop, hn]
      omega
    · intro h
      exact hsame (h.imp_right fun full => by omega)
    · exact fun hnil hroom => hpast hnil (Nat.sub_pos_of_lt hroom)
  · refine .inr ⟨e, { c with stream := c.stream.pastEnd }, hbytes, Nat.lt_of_sub_pos hroom, hend, ?_⟩
    simp only [fill, if_pos hlen, hread]

theorem fill_ok {c : Connection} (hlen : c.buffer.len ≤ BUFFER_SIZE) (hne : c.stream.bytes ≠ []) :
    ∃ c', fill c = (.ok (), c') ∧ Filled c c' := by
  obtain filled | ⟨_, _, hnil, _⟩ := fill_cases hlen
  · exact filled
  · exact absurd hnil hne

theorem filled_of_fill {c c' : Connection} (hlen : c.buffer.len ≤ BUFFER_SIZE)
    (h : fill c = (.ok (), c')) : Filled c c' := by
  obtain ⟨c₁, hfill, filled⟩ | ⟨_, _, _, _, _, hfill⟩ := fill_cases hlen
  · rw [hfill] at h
    cases h
    exact filled
  · rw [hfill] at h
    cases h

/-! ## Whole calls -/

/-- What is pending and to come starts with a chunk: pending stops inside of it, or it is
complete and handed out. -/
theorem look_cases {c : Connection} {chunk : BinaryChunk} {rest : Bytes}
    (hlen : c.buffer.len ≤ BUFFER_SIZE) (h : c.pending ++ c.stream.bytes = chunk.raw ++ rest) :
    (c.buffer.len < chunk.raw.length ∧ c.stream.bytes ≠ [] ∧ look c = (.ok none, c)) ∨
    (chunk.raw.length ≤ c.buffer.len ∧ ∃ c', look c = (.ok (some chunk), c') ∧
      c'.buffer.len ≤ BUFFER_SIZE ∧ c'.pending ++ c'.stream.bytes = rest) := by
  have hpending := c.pending_length hlen
  by_cases hshort : c.buffer.len < chunk.raw.length
  · refine .inl ⟨hshort, ?_, ?_⟩
    · intro hnil
      have := congrArg List.length h
      rw [hnil, List.append_nil, List.length_append] at this
      omega
    · rw [look, Exec.onPart, takeChunk_none hlen h hshort]
  · have hprefix : chunk.raw <+: c.pending :=
      @List.prefix_of_prefix_length_le _ _ _ (c.pending ++ c.stream.bytes)
        (h ▸ List.prefix_append _ _) (List.prefix_append _ _) (by omega)
    obtain ⟨after, hafter⟩ := hprefix
    obtain ⟨b', hrun, hlen', hdata⟩ := takeChunk_some hlen hafter.symm
    refine .inr ⟨Nat.not_lt.mp hshort, { c with buffer := b' }, ?_, hlen', ?_⟩
    · rw [look, Exec.onPart, hrun]
    · rw [← hafter, List.append_assoc] at h
      show b'.data.take b'.len ++ c.stream.bytes = rest
      rw [hdata]
      exact List.append_cancel_left h

/-- The next pass of `read_chunk` after one that found no complete chunk. -/
theorem readChunk_again {c c' : Connection} {fuel retry : Nat} (hlook : look c = (.ok none, c))
    (hfill : fill c = (.ok (), c')) (hlen : c'.buffer.len ≠ 0) :
    readChunk (fuel + 1) retry c = readChunk fuel retry c' := by
  rw [readChunk]
  refine (Exec.bind_ok hlook).trans ?_
  refine (Exec.bind_ok hfill).trans ?_
  show (if c'.buffer.len = 0 then _ else _ : Exec Connection IoError BinaryChunk) c' = _
  rw [if_neg hlen]

/-- A chunk that fits into the buffer is returned, and nothing else is taken. -/
theorem readChunk_ok {c : Connection} {chunk : BinaryChunk} {rest : Bytes} {fuel : Nat} (retry : Nat)
    (hlen : c.buffer.len ≤ BUFFER_SIZE) (h : c.pending ++ c.stream.bytes = chunk.raw ++ rest)
    (small : chunk.content.length ≤ 0xFFFE) (enough : chunk.raw.length - c.buffer.len < fuel) :
    ∃ c', readChunk fuel retry c = (.ok chunk, c') ∧ c'.buffer.len ≤ BUFFER_SIZE ∧
      c'.pending ++ c'.stream.bytes = rest := by
  induction fuel generalizing c with
  | zero => exact absurd enough (Nat.not_lt_zero _)
  | succ fuel ih =>
      obtain ⟨hshort, hne, hlook⟩ | ⟨_, c', hlook, hlen', hrest⟩ := look_cases hlen h
      · have hroom : c.buffer.len < BUFFER_SIZE := by
          have := chunk.length_raw
          unfold BUFFER_SIZE
          omega
        obtain ⟨c', hfill, filled⟩ := fill_ok hlen hne
        have hgrew := filled.more hroom hne
        rw [readChunk_again hlook hfill (by omega)]
        exact ih filled.len (filled.same.trans h) (by omega)
      · exact ⟨c', Exec.bind_ok hlook, hlen', hrest⟩

/-- A call that returns has returned the chunk that comes in, and that fits into the
buffer. -/
theorem readChunk_only {c c' : Connection} {chunk found : BinaryChunk} {rest : Bytes}
    {fuel retry : Nat} (hlen : c.buffer.len ≤ BUFFER_SIZE)
    (h : c.pending ++ c.stream.bytes = chunk.raw ++ rest)
    (run : readChunk fuel retry c = (.ok found, c')) :
    found = chunk ∧ chunk.raw.length ≤ BUFFER_SIZE ∧ c'.buffer.len ≤ BUFFER_SIZE ∧
      c'.pending ++ c'.stream.bytes = rest := by
  induction fuel generalizing c retry with
  | zero => cases run
  | succ fuel ih =>
      obtain ⟨seen, c₁, hlook, run⟩ := Exec.of_bind_ok run
      obtain ⟨_, _, hnone⟩ | ⟨hfits, c₂, hsome, hlen₂, hrest⟩ := look_cases hlen h
      · rw [hnone] at hlook
        cases hlook
        obtain ⟨_, c₂, hfill, run⟩ := Exec.of_bind_ok run
        obtain ⟨len, c₃, hgets, run⟩ := Exec.of_bind_ok run
        cases hgets
        have filled := filled_of_fill hlen hfill
        split at run
        · split at run
          · cases run
          · exact ih filled.len (filled.same.trans h) run
        · exact ih filled.len (filled.same.trans h) run
      · rw [hsome] at hlook
        cases hlook
        cases run
        exact ⟨rfl, hfits.trans hlen, hlen₂, hrest⟩

theorem readChunks_ok {c : Connection} {chunks : List BinaryChunk} {rest : Bytes} {fuel : Nat}
    (hlen : c.buffer.len ≤ BUFFER_SIZE)
    (h : c.pending ++ c.stream.bytes = chunks.flatMap BinaryChunk.raw ++ rest)
    (small : ∀ chunk ∈ chunks, chunk.content.length ≤ 0xFFFE) (enough : BUFFER_SIZE < fuel) :
    ∃ c', readChunks fuel chunks.length c = (.ok chunks, c') ∧ c'.buffer.len ≤ BUFFER_SIZE ∧
      c'.pending ++ c'.stream.bytes = rest := by
  induction chunks generalizing c with
  | nil => exact ⟨c, rfl, hlen, h⟩
  | cons chunk chunks ih =>
      rw [List.flatMap_cons, List.append_assoc] at h
      have hsmall := small chunk List.mem_cons_self
      have hfuel : chunk.raw.length - c.buffer.len < fuel := by
        have := chunk.length_raw
        unfold BUFFER_SIZE at enough
        omega
      obtain ⟨c₁, hfirst, hlen₁, hrest⟩ := readChunk_ok 0 hlen h hsmall hfuel
      obtain ⟨c₂, hothers, hlen₂, hend⟩ :=
        ih hlen₁ hrest fun chunk mem => small chunk (List.mem_cons_of_mem _ mem)
      refine ⟨c₂, ?_, hlen₂, hend⟩
      rw [List.length_cons, readChunks, Exec.bind_ok hfirst, Exec.bind_ok hothers]
      rfl

/-- The points a run of calls passes: the chunks that were returned so far and the
connection, before and after each read. -/
inductive Reaches (c : Connection) : List BinaryChunk → Connection → Prop
  | start : Reaches c [] c
  | returned {chunks : List BinaryChunk} {chunk : BinaryChunk} {c₁ c₂ : Connection} :
      Reaches c chunks c₁ → look c₁ = (.ok (some chunk), c₂) → Reaches c (chunks ++ [chunk]) c₂
  | filled {chunks : List BinaryChunk} {c₁ c₂ c₃ : Connection} :
      Reaches c chunks c₁ → look c₁ = (.ok none, c₂) → fill c₂ = (.ok (), c₃) → Reaches c chunks c₃

/-- A call passes such points, up to its end. -/
theorem Reaches.readChunk {c c₁ c₂ : Connection} {chunks : List BinaryChunk} {chunk : BinaryChunk}
    {fuel retry : Nat} (reached : Reaches c chunks c₁)
    (h : Connection.readChunk fuel retry c₁ = (.ok chunk, c₂)) :
    Reaches c (chunks ++ [chunk]) c₂ := by
  induction fuel generalizing c₁ retry with
  | zero => cases h
  | succ fuel ih =>
      obtain ⟨found, c₃, hlook, h⟩ := Exec.of_bind_ok h
      cases found with
      | some chunk' =>
          cases h
          exact reached.returned hlook
      | none =>
          obtain ⟨_, c₄, hfill, h⟩ := Exec.of_bind_ok h
          obtain ⟨len, c₅, hlen, h⟩ := Exec.of_bind_ok h
          cases hlen
          have next := reached.filled hlook hfill
          split at h
          · split at h
            · cases h
            · exact ih next h
          · exact ih next h

theorem Reaches.readChunks {c c₁ c₂ : Connection} {chunks chunks' : List BinaryChunk}
    {fuel n : Nat} (reached : Reaches c chunks c₁)
    (h : Connection.readChunks fuel n c₁ = (.ok chunks', c₂)) :
    Reaches c (chunks ++ chunks') c₂ := by
  induction n generalizing c₁ chunks chunks' with
  | zero =>
      cases h
      rw [List.append_nil]
      exact reached
  | succ n ih =>
      obtain ⟨chunk, c₃, hfirst, h⟩ := Exec.of_bind_ok h
      obtain ⟨others, c₄, hothers, h⟩ := Exec.of_bind_ok h
      cases h
      have next := ih (reached.readChunk hfirst) hothers
      rw [List.append_assoc] at next
      exact next

/-- What holds at a point of a run over chunks. -/
structure InStep (chunks returned : List BinaryChunk) (c : Connection) : Prop where
  order : returned <+: chunks
  /-- The bytes of all chunks are those returned, those pending and those to come. -/
  bytes : chunks.flatMap BinaryChunk.raw =
    returned.flatMap BinaryChunk.raw ++ (c.pending ++ c.stream.bytes)
  len : c.buffer.len ≤ BUFFER_SIZE
  /-- Looking for a chunk does not panic, so that its conversion is fine. -/
  looks : ∃ found c', look c = (.ok found, c')
  /-- A read has room. -/
  room : ∀ c', look c = (.ok none, c') → c'.buffer.len < BUFFER_SIZE

/-- The chunks that are left at a point are what is pending and to come. -/
structure Left (left : List BinaryChunk) (c : Connection) : Prop where
  len : c.buffer.len ≤ BUFFER_SIZE
  bytes : c.pending ++ c.stream.bytes = left.flatMap BinaryChunk.raw

/-- Looking for a chunk finds the first that is left, or nothing while that is not
complete. -/
theorem Left.look {left : List BinaryChunk} {c : Connection} (h : Left left c)
    (small : ∀ chunk ∈ left, chunk.content.length ≤ 0xFFFE) :
    (Connection.look c = (.ok none, c) ∧ c.buffer.len < BUFFER_SIZE) ∨
    ∃ chunk rest c', left = chunk :: rest ∧ Connection.look c = (.ok (some chunk), c') ∧
      Left rest c' := by
  cases left with
  | nil =>
      have hempty : c.pending = [] := (List.append_eq_nil_iff.mp h.bytes).1
      have hzero : c.buffer.len = 0 := by
        rw [← c.pending_length h.len, hempty, List.length_nil]
      have hcond : ¬ (c.buffer.len ≥ HEADER_LENGTH ∧
          c.buffer.len ≥ BinaryChunk.getU16 c.buffer.data + HEADER_LENGTH) := by
        unfold HEADER_LENGTH
        omega
      refine .inl ⟨?_, by unfold BUFFER_SIZE; omega⟩
      simp only [Connection.look, Exec.onPart, takeChunk, if_neg hcond]
  | cons chunk rest =>
      have hbytes := h.bytes
      rw [List.flatMap_cons] at hbytes
      obtain ⟨hshort, _, hlook⟩ | ⟨_, c', hlook, hlen, hrest⟩ := look_cases h.len hbytes
      · have hraw := chunk.length_raw
        have hsmall := small chunk List.mem_cons_self
        exact .inl ⟨hlook, by unfold BUFFER_SIZE; omega⟩
      · exact .inr ⟨chunk, rest, c', rfl, hlook, hlen, hrest⟩

/-- At every point some of the chunks were returned and the others are left. -/
theorem Reaches.left {c c' : Connection} {chunks returned : List BinaryChunk}
    (start : Left chunks c) (small : ∀ chunk ∈ chunks, chunk.content.length ≤ 0xFFFE)
    (reached : Reaches c returned c') : ∃ left, chunks = returned ++ left ∧ Left left c' := by
  induction reached with
  | start => exact ⟨chunks, rfl, start⟩
  | @returned returned chunk c₁ c₂ _ hlook ih =>
      obtain ⟨left, hsplit, hleft⟩ := ih
      have hsmall : ∀ chunk ∈ left, chunk.content.length ≤ 0xFFFE := fun chunk mem =>
        small chunk (hsplit ▸ List.mem_append_right _ mem)
      obtain ⟨hnone, _⟩ | ⟨chunk', rest, c₃, rfl, hsome, hrest⟩ := hleft.look hsmall
      · rw [hnone] at hlook
        cases hlook
      · rw [hsome] at hlook
        cases hlook
        exact ⟨rest, by rw [hsplit, List.append_assoc, List.singleton_append], hrest⟩
  | @filled returned c₁ c₂ c₃ _ hlook hfill ih =>
      obtain ⟨left, hsplit, hleft⟩ := ih
      have hsmall : ∀ chunk ∈ left, chunk.content.length ≤ 0xFFFE := fun chunk mem =>
        small chunk (hsplit ▸ List.mem_append_right _ mem)
      obtain ⟨hnone, _⟩ | ⟨chunk', rest, c₄, rfl, hsome, hrest⟩ := hleft.look hsmall
      · rw [hnone] at hlook
        cases hlook
        have filled := filled_of_fill hleft.len hfill
        exact ⟨left, hsplit, filled.len, filled.same.trans hleft.bytes⟩
      · rw [hsome] at hlook
        cases hlook

/-- However the bytes of some chunks arrive, the calls return these chunks in order, and at
every point what is pending is what was received and not returned. -/
theorem readChunks_chunks {chunks : List BinaryChunk}
    (small : ∀ chunk ∈ chunks, chunk.content.length ≤ 0xFFFE) (amounts : Nat → Nat)
    (endings : Nat → Option IoError) {fuel : Nat} (enough : BUFFER_SIZE < fuel) :
    (∃ c', readChunks fuel chunks.length
        ⟨.default, ⟨chunks.flatMap BinaryChunk.raw, amounts, endings⟩⟩ = (.ok chunks, c') ∧
      Reaches ⟨.default, ⟨chunks.flatMap BinaryChunk.raw, amounts, endings⟩⟩ chunks c') ∧
    ∀ returned c',
      Reaches ⟨.default, ⟨chunks.flatMap BinaryChunk.raw, amounts, endings⟩⟩ returned c' →
      InStep chunks returned c' := by
  have start : Left chunks ⟨.default, ⟨chunks.flatMap BinaryChunk.raw, amounts, endings⟩⟩ :=
    ⟨Nat.zero_le _, rfl⟩
  refine ⟨?_, ?_⟩
  · have hbytes := start.bytes.trans (List.append_nil _).symm
    obtain ⟨c', hrun, _⟩ := readChunks_ok start.len hbytes small enough
    exact ⟨c', hrun, Reaches.start.readChunks hrun⟩
  · intro returned c' reached
    obtain ⟨left, hsplit, hleft⟩ := reached.left start small
    have hsmall : ∀ chunk ∈ left, chunk.content.length ≤ 0xFFFE := fun chunk mem =>
      small chunk (hsplit ▸ List.mem_append_right _ mem)
    refine ⟨⟨left, hsplit.symm⟩, ?_, hleft.len, ?_, ?_⟩
    · rw [hleft.bytes, hsplit, List.flatMap_append]
    · obtain ⟨hnone, _⟩ | ⟨chunk, rest, c₁, _, hsome, _⟩ := hleft.look hsmall
      · exact ⟨none, c', hnone⟩
      · exact ⟨some chunk, c₁, hsome⟩
    · intro c₁ hlook
      obtain ⟨hnone, hroom⟩ | ⟨chunk, rest, c₂, _, hsome, _⟩ := hleft.look hsmall
      · rw [hnone] at hlook
        cases hlook
        exact hroom
      · rw [hsome] at hlook
        cases hlook

/-- Two chunks, the second one empty. -/
def twoChunks : List BinaryChunk := [⟨[0, 1, 9], by decide⟩, ⟨[0, 0], by decide⟩]

theorem readChunks_chunks_two :
    ∃ c', readChunks (BUFFER_SIZE + 1) 2
      ⟨.default, ⟨[0, 1, 9, 0, 0], fun n => n, fun _ => none⟩⟩ = (.ok twoChunks, c') := by
  obtain ⟨c', hrun, _⟩ := (@readChunks_chunks twoChunks (by decide) (fun n => n) (fun _ => none) _
    (Nat.lt_succ_self BUFFER_SIZE)).1
  exact ⟨c', hrun⟩

end Connection

end NodeFuzzer
