import NodeFuzzer.P2pFuzzer.ChunkBuffer

/-!
# Progress of `read_chunk`

A call of `read_chunk` reads until a chunk is complete.  At the end of the stream it gives up,
but only while its buffer is empty: it reads for ever behind a part of a chunk that the stream
ended in, unless the stream ends in an error.  The buffer is as large as the largest content,
so it also reads for ever into no room for a chunk with such a content.  `readChunk_progresses`
says that these are the only calls that do not return.
-/

namespace NodeFuzzer

namespace Connection

/-- The points a call passes before its reads. -/
inductive Passes (c : Connection) : Connection → Prop
  | start : Passes c c
  | again {c₁ c₂ c₃ : Connection} : Passes c c₁ → look c₁ = (.ok none, c₂) →
      fill c₂ = (.ok (), c₃) → Passes c c₃

/-- A call always reads into a slice that is not empty, and returns. -/
structure Progresses (c : Connection) : Prop where
  room : ∀ c₁ c₂, Passes c c₁ → look c₁ = (.ok none, c₂) → c₂.buffer.len < BUFFER_SIZE
  returns : ∃ fuel, (readChunk fuel 0 c).1 ≠ .panic

/-- Nothing is pending and nothing comes, or what is pending and comes starts with a complete
chunk that fits into the buffer. -/
def Served (c : Connection) : Prop :=
  c.pending ++ c.stream.bytes = [] ∨ ∃ (chunk : BinaryChunk) (rest : Bytes),
    c.pending ++ c.stream.bytes = chunk.raw ++ rest ∧ chunk.content.length ≤ 0xFFFE

/-- What is pending and comes leaves room in the buffer, and a read behind it fails. -/
def Breaks (c : Connection) : Prop :=
  (c.pending ++ c.stream.bytes).length < BUFFER_SIZE ∧ ∃ n, c.stream.endings n ≠ none

/-! ## Looking for a chunk -/

/-- The bytes of a complete chunk are one. -/
theorem chunk_of_getU16 {bytes : Bytes} (header : 2 ≤ bytes.length)
    (complete : BinaryChunk.getU16 bytes + 2 ≤ bytes.length) :
    ∃ (chunk : BinaryChunk) (rest : Bytes), bytes = chunk.raw ++ rest := by
  have hlen : (bytes.take (BinaryChunk.getU16 bytes + 2)).length = BinaryChunk.getU16 bytes + 2 :=
    List.length_take_of_le complete
  have hsame : BinaryChunk.getU16 (bytes.take (BinaryChunk.getU16 bytes + 2)) =
      BinaryChunk.getU16 bytes := getU16_take (by omega)
  have hlt : BinaryChunk.getU16 bytes < 256 ^ 2 := by
    have := ofBe_lt (bytes.take 2)
    rwa [List.length_take_of_le header] at this
  have hsized := @BinaryChunk.sized_raw (bytes.take (BinaryChunk.getU16 bytes + 2))
    (by rw [hlen, CONTENT_LENGTH_FIELD_BYTES]; omega)
    (by rw [hlen, CONTENT_LENGTH_MAX, CONTENT_LENGTH_FIELD_BYTES]; omega)
    (by rw [hsame, hlen, CONTENT_LENGTH_FIELD_BYTES])
  exact ⟨⟨_, hsized⟩, bytes.drop (BinaryChunk.getU16 bytes + 2), (List.take_append_drop _ _).symm⟩

/-- Looking for a chunk changes nothing or hands out the one that is pending first. -/
theorem look_total {c : Connection} (hlen : c.buffer.len ≤ BUFFER_SIZE) :
    look c = (.ok none, c) ∨ ∃ (chunk : BinaryChunk) (rest : Bytes) (c' : Connection),
      c.pending = chunk.raw ++ rest ∧ look c = (.ok (some chunk), c') ∧
        c'.buffer.len ≤ BUFFER_SIZE := by
  have hpending := c.pending_length hlen
  by_cases hcond : c.buffer.len ≥ HEADER_LENGTH ∧
      c.buffer.len ≥ BinaryChunk.getU16 c.buffer.data + HEADER_LENGTH
  · obtain ⟨header, complete⟩ := hcond
    unfold HEADER_LENGTH at header complete
    have hsame : BinaryChunk.getU16 c.pending = BinaryChunk.getU16 c.buffer.data :=
      getU16_take header
    obtain ⟨chunk, rest, hfront⟩ :=
      @chunk_of_getU16 c.pending (by omega) (by rw [hsame]; omega)
    obtain ⟨b', hrun, hlen', _⟩ := takeChunk_some hlen hfront
    refine .inr ⟨chunk, rest, { c with buffer := b' }, hfront, ?_, hlen'⟩
    rw [look, Exec.onPart, hrun]
  · exact .inl (by simp only [look, Exec.onPart, takeChunk, if_neg hcond])

theorem look_len {c c' : Connection} {found : Option BinaryChunk}
    (hlen : c.buffer.len ≤ BUFFER_SIZE) (h : look c = (.ok found, c')) :
    c'.buffer.len ≤ BUFFER_SIZE := by
  obtain hnone | ⟨chunk, rest, c₁, _, hsome, hlen₁⟩ := look_total hlen
  · rw [hnone] at h
    cases h
    exact hlen
  · rw [hsome] at h
    cases h
    exact hlen₁

theorem Reaches.len {c c' : Connection} {returned : List BinaryChunk}
    (hlen : c.buffer.len ≤ BUFFER_SIZE) (reached : Reaches c returned c') :
    c'.buffer.len ≤ BUFFER_SIZE := by
  induction reached with
  | start => exact hlen
  | returned _ hlook ih => exact look_len ih hlook
  | filled _ hlook hfill ih => exact (filled_of_fill (look_len ih hlook) hfill).len

/-- The reads behind the last byte give what the stream has for them, in order. -/
theorem Reaches.endings {c c' : Connection} {returned : List BinaryChunk}
    (hlen : c.buffer.len ≤ BUFFER_SIZE) (reached : Reaches c returned c') :
    ∃ k, ∀ n, c'.stream.endings n = c.stream.endings (n + k) := by
  induction reached with
  | start => exact ⟨0, fun n => rfl⟩
  | returned _ hlook ih =>
      obtain ⟨b, _, rfl⟩ := Exec.of_onPart_ok hlook
      exact ih
  | @filled _ c₁ c₂ c₃ reached hlook hfill ih =>
      have hlen₂ := look_len (reached.len hlen) hlook
      obtain ⟨b, _, rfl⟩ := Exec.of_onPart_ok hlook
      obtain ⟨k, hk⟩ := ih
      have filled := filled_of_fill hlen₂ hfill
      by_cases hend : c₁.stream.bytes = [] ∧ b.len < BUFFER_SIZE
      · refine ⟨k + 1, fun n => ?_⟩
        rw [(filled.past hend.1 hend.2).2]
        exact (hk (n + 1)).trans (congrArg _ (by omega))
      · refine ⟨k, fun n => ?_⟩
        rw [filled.endings ?_]
        · exact hk n
        · rcases not_and_or.mp hend with hne | full
          · exact .inl hne
          · exact .inr (le_antisymm hlen₂ (Nat.not_lt.mp full))

/-! ## The calls that return -/

/-- A call passes the same bytes, pending or to come. -/
theorem Passes.same {c c' : Connection} (hlen : c.buffer.len ≤ BUFFER_SIZE) (pass : Passes c c') :
    c'.buffer.len ≤ BUFFER_SIZE ∧ c'.pending ++ c'.stream.bytes = c.pending ++ c.stream.bytes := by
  induction pass with
  | start => exact ⟨hlen, rfl⟩
  | again _ hlook hfill ih =>
      obtain ⟨hlen₁, hsame₁⟩ := ih
      obtain hnone | ⟨chunk, rest, c₁, _, hsome, _⟩ := look_total hlen₁
      · rw [hnone] at hlook
        cases hlook
        have filled := filled_of_fill hlen₁ hfill
        exact ⟨filled.len, filled.same.trans hsame₁⟩
      · rw [hsome] at hlook
        cases hlook

theorem len_of_nothing {c : Connection} (hlen : c.buffer.len ≤ BUFFER_SIZE)
    (h : c.pending ++ c.stream.bytes = []) : c.buffer.len = 0 := by
  rw [← c.pending_length hlen, (List.append_eq_nil_iff.mp h).1, List.length_nil]

theorem look_nothing {c : Connection} (hlen : c.buffer.len ≤ BUFFER_SIZE)
    (h : c.pending ++ c.stream.bytes = []) : look c = (.ok none, c) := by
  obtain hnone | ⟨chunk, rest, _, hfront, _⟩ := look_total hlen
  · exact hnone
  · have hraw := chunk.length_raw
    have hnil := congrArg List.length (List.append_eq_nil_iff.mp h).1
    rw [hfront, List.length_append, List.length_nil] at hnil
    omega

/-- The next pass of `read_chunk` after one that found no chunk and read nothing. -/
theorem readChunk_retry {c c' : Connection} {fuel retry : Nat} (hlook : look c = (.ok none, c))
    (hfill : fill c = (.ok (), c')) (hzero : c'.buffer.len = 0) :
    readChunk (fuel + 1) retry c =
      (if retry > 2 then Exec.fail .zeroLengthRead else readChunk fuel (retry + 1)) c' := by
  rw [readChunk, Exec.bind_ok hlook]
  refine (Exec.bind_ok hfill).trans ?_
  show (if c'.buffer.len = 0 then _ else _ : Exec Connection IoError BinaryChunk) c' = _
  rw [if_pos hzero]

/-- A read that fails ends the call. -/
theorem readChunk_fails {c c' : Connection} {fuel retry : Nat} {e : IoError}
    (hlook : look c = (.ok none, c)) (hfill : fill c = (.err e, c')) :
    readChunk (fuel + 1) retry c = (.err e, c') := by
  rw [readChunk, Exec.bind_ok hlook]
  show Exec.bind fill _ c = _
  rw [Exec.bind, hfill]

/-- With nothing pending and nothing to come, a call gives up after its retries, or when a read
fails. -/
theorem readChunk_nothing {fuel retry : Nat} (enough : 3 < fuel + retry) {c : Connection}
    (pos : 0 < fuel) (hlen : c.buffer.len ≤ BUFFER_SIZE) (h : c.pending ++ c.stream.bytes = []) :
    ∃ e, (readChunk fuel retry c).1 = .err e := by
  induction fuel generalizing retry c with
  | zero => exact absurd pos (lt_irrefl 0)
  | succ fuel ih =>
      obtain ⟨c', hfill, filled⟩ | ⟨e, c', _, _, _, hfill⟩ := fill_cases hlen
      · have hnothing := filled.same.trans h
        rw [readChunk_retry (look_nothing hlen h) hfill (len_of_nothing filled.len hnothing)]
        split
        · exact ⟨_, rfl⟩
        · exact ih (by omega) (by omega) filled.len hnothing
      · exact ⟨e, by rw [readChunk_fails (look_nothing hlen h) hfill]⟩

theorem Served.progresses {c : Connection} (hlen : c.buffer.len ≤ BUFFER_SIZE) (served : Served c) :
    Progresses c := by
  obtain hnil | ⟨chunk, rest, hfront, small⟩ := served
  · constructor
    · intro c₁ c₂ pass hlook
      obtain ⟨hlen₁, hsame⟩ := pass.same hlen
      rw [look_nothing hlen₁ (hsame.trans hnil)] at hlook
      cases hlook
      have hzero := len_of_nothing hlen₁ (hsame.trans hnil)
      unfold BUFFER_SIZE
      omega
    · have enough : 3 < 4 + 0 := by omega
      obtain ⟨e, herr⟩ := readChunk_nothing enough (by omega) hlen hnil
      exact ⟨4, by rw [herr]; simp⟩
  · have hraw := chunk.length_raw
    constructor
    · intro c₁ c₂ pass hlook
      obtain ⟨hlen₁, hsame⟩ := pass.same hlen
      obtain ⟨hshort, _, hnone⟩ | ⟨_, c₃, hsome, _⟩ := look_cases hlen₁ (hsame.trans hfront)
      · rw [hnone] at hlook
        cases hlook
        unfold BUFFER_SIZE
        omega
      · rw [hsome] at hlook
        cases hlook
    · obtain ⟨c', hrun, _⟩ := readChunk_ok 0 hlen hfront small (Nat.lt_succ_self _)
      exact ⟨_, by rw [hrun]; simp⟩

/-- A call that has room comes to the end of the stream, and to the read that fails there. -/
theorem readChunk_breaks {n fuel retry : Nat} {c : Connection} (hlen : c.buffer.len ≤ BUFFER_SIZE)
    (hroom : (c.pending ++ c.stream.bytes).length < BUFFER_SIZE)
    (hbreaks : c.stream.endings n ≠ none) (enough : c.stream.bytes.length + n < fuel) :
    (readChunk fuel retry c).1 ≠ .panic := by
  induction fuel generalizing c n retry with
  | zero => exact absurd enough (Nat.not_lt_zero _)
  | succ fuel ih =>
      have hshort : c.buffer.len < BUFFER_SIZE := by
        rw [List.length_append, c.pending_length hlen] at hroom
        omega
      obtain hnone | ⟨chunk, _, c', _, hsome, _⟩ := look_total hlen
      · obtain ⟨c', hfill, filled⟩ | ⟨e, c', _, _, _, hfill⟩ := fill_cases hlen
        · -- The stream has fewer bytes, or fewer reads until the one that fails.
          obtain ⟨m, hbreaks', hless⟩ : ∃ m, c'.stream.endings m ≠ none ∧
              c'.stream.bytes.length + m < c.stream.bytes.length + n := by
            by_cases hnil : c.stream.bytes = []
            · obtain ⟨hend, hpast⟩ := filled.past hnil hshort
              cases n with
              | zero => exact absurd hend hbreaks
              | succ n =>
                  refine ⟨n, by rw [hpast]; exact hbreaks, ?_⟩
                  rw [hpast]
                  exact Nat.lt_succ_self _
            · have := filled.more hshort hnil
              have := filled.shorter
              exact ⟨n, by rw [filled.endings (.inl hnil)]; exact hbreaks, by omega⟩
          rw [← filled.same] at hroom
          by_cases hzero : c'.buffer.len = 0
          · rw [readChunk_retry hnone hfill hzero]
            split
            · intro h
              cases h
            · exact ih filled.len hroom hbreaks' (by omega)
          · rw [readChunk_again hnone hfill hzero]
            exact ih filled.len hroom hbreaks' (by omega)
        · rw [readChunk_fails hnone hfill]
          intro h
          cases h
      · rw [readChunk, Exec.bind_ok hsome]
        intro h
        cases h

theorem Breaks.progresses {c : Connection} (hlen : c.buffer.len ≤ BUFFER_SIZE) (breaks : Breaks c) :
    Progresses c := by
  obtain ⟨hroom, n, hbreaks⟩ := breaks
  refine ⟨fun c₁ c₂ pass hlook => ?_, _, readChunk_breaks hlen hroom hbreaks (Nat.lt_succ_self _)⟩
  obtain ⟨hlen₁, hsame⟩ := pass.same hlen
  obtain hnone | ⟨chunk, _, c', _, hsome, _⟩ := look_total hlen₁
  · rw [hnone] at hlook
    cases hlook
    rw [← hsame, List.length_append, c₁.pending_length hlen₁] at hroom
    omega
  · rw [hsome] at hlook
    cases hlook

/-! ## The calls that do not -/

/-- A call that finds no chunk that fits, and meets no error, reads again, and its buffer is not
empty then. -/
theorem not_served_step {c : Connection} (hlen : c.buffer.len ≤ BUFFER_SIZE) (h : ¬ Served c)
    (whole : ¬ Breaks c) : look c = (.ok none, c) ∧ ∃ c', fill c = (.ok (), c') ∧
      c'.buffer.len ≤ BUFFER_SIZE ∧ c'.buffer.len ≠ 0 ∧ ¬ Served c' ∧ ¬ Breaks c' := by
  obtain ⟨c', hfill, filled⟩ | ⟨e, c', hnil, hroom, hend, _⟩ := fill_cases hlen
  · refine ⟨?_, c', hfill, filled.len, ?_, ?_, ?_⟩
    · obtain hnone | ⟨chunk, rest, _, hfront, _⟩ := look_total hlen
      · exact hnone
      · -- The chunk is in the buffer, and so is not the largest.
        refine absurd (.inr ⟨chunk, rest ++ c.stream.bytes, ?_, ?_⟩) h
        · rw [hfront, List.append_assoc]
        · have hraw := chunk.length_raw
          have hfits := congrArg List.length hfront
          rw [c.pending_length hlen, List.length_append] at hfits
          unfold BUFFER_SIZE at hlen
          omega
    · intro hzero
      have hempty : c.buffer.len = 0 := by
        have := filled.grows
        omega
      have hroom : c.buffer.len < BUFFER_SIZE := by
        unfold BUFFER_SIZE
        omega
      by_cases hend : c.stream.bytes = []
      · have hpending : c.pending = [] :=
          List.eq_nil_of_length_eq_zero ((c.pending_length hlen).trans hempty)
        exact h (.inl (List.append_eq_nil_iff.mpr ⟨hpending, hend⟩))
      · have := filled.more hroom hend
        omega
    · unfold Served at h ⊢
      rwa [filled.same]
    · intro breaks
      obtain ⟨hroom, n, hbreaks⟩ := breaks
      rw [filled.same] at hroom
      have hshort : c.buffer.len < BUFFER_SIZE := by
        rw [List.length_append, c.pending_length hlen] at hroom
        omega
      by_cases hnil : c.stream.bytes = []
      · rw [(filled.past hnil hshort).2] at hbreaks
        exact whole ⟨hroom, n + 1, hbreaks⟩
      · rw [filled.endings (.inl hnil)] at hbreaks
        exact whole ⟨hroom, n, hbreaks⟩
  · -- The bytes all fit, and the read behind them fails.
    refine absurd ⟨?_, 0, ?_⟩ whole
    · rw [List.length_append, c.pending_length hlen, hnil]
      exact hroom
    · rw [hend]
      exact Option.some_ne_none e

theorem readChunk_not_served {fuel retry : Nat} {c : Connection}
    (hlen : c.buffer.len ≤ BUFFER_SIZE) (h : ¬ Served c) (whole : ¬ Breaks c) :
    (readChunk fuel retry c).1 = .panic := by
  induction fuel generalizing c with
  | zero => rfl
  | succ fuel ih =>
      obtain ⟨hlook, c', hfill, hlen', hne, h', whole'⟩ := not_served_step hlen h whole
      rw [readChunk_again hlook hfill hne]
      exact ih hlen' h' whole'

/-- At every point of a run, a call returns, and reads into no empty slice, exactly when
nothing is left, a complete chunk that is not the largest comes first, or the stream fails
before the buffer is full. -/
theorem readChunk_progresses {stream : TcpStream} {returned : List BinaryChunk} {c : Connection}
    (reached : Reaches ⟨.default, stream⟩ returned c) : Progresses c ↔ Served c ∨ Breaks c := by
  have hlen := reached.len (Nat.zero_le _)
  constructor
  · intro progresses
    obtain ⟨fuel, hreturns⟩ := progresses.returns
    by_contra h
    obtain ⟨served, breaks⟩ := not_or.mp h
    exact hreturns (readChunk_not_served hlen served breaks)
  · exact fun h => h.elim (Served.progresses hlen) (Breaks.progresses hlen)

/-- Half a header is neither nothing nor a chunk. -/
theorem not_served_half_header : ¬ (([0] : Bytes) = [] ∨ ∃ (chunk : BinaryChunk) (rest : Bytes),
    [0] = chunk.raw ++ rest ∧ chunk.content.length ≤ 0xFFFE) := by
  rintro (hnil | ⟨chunk, rest, hfront, _⟩)
  · cases hnil
  · have hraw := chunk.length_raw
    have hlen := congrArg List.length hfront
    rw [List.length_append, List.length_singleton] at hlen
    omega

/-- A peer that sends a chunk and half a header, byte by byte, before the connection is reset.
Before the chunk was returned and after it, a call returns. -/
theorem readChunk_progresses_reset :
    let start : Connection := ⟨.default, ⟨[0, 1, 9, 0], fun _ => 0, fun _ => some (.os 104)⟩⟩
    Progresses start ∧
      ∃ c, Reaches start [⟨[0, 1, 9], by decide⟩] c ∧ Progresses c ∧ ¬ Served c := by
  intro start
  have hlen : start.buffer.len ≤ BUFFER_SIZE := Nat.zero_le _
  have hbytes : start.pending ++ start.stream.bytes =
      (⟨[0, 1, 9], by decide⟩ : BinaryChunk).raw ++ [0] := rfl
  refine ⟨(readChunk_progresses .start).mpr (.inl (.inr ⟨_, _, hbytes, by decide⟩)), ?_⟩
  obtain ⟨c, hrun, hlen', hrest⟩ := readChunk_ok 0 hlen hbytes (by decide) (Nat.lt_succ_self _)
  have reached : Reaches start [⟨[0, 1, 9], by decide⟩] c := Reaches.start.readChunk hrun
  obtain ⟨k, hendings⟩ := reached.endings hlen
  refine ⟨c, reached, (readChunk_progresses reached).mpr (.inr ⟨?_, 0, ?_⟩), ?_⟩
  · rw [hrest]
    decide
  · rw [hendings 0]
    exact Option.some_ne_none _
  · rw [Served, hrest]
    exact not_served_half_header

/-- A peer that sends half a header and goes. -/
theorem readChunk_half_header : ¬ ∀ (stream : TcpStream) (returned : List BinaryChunk)
    (c : Connection), Reaches ⟨.default, stream⟩ returned c → Progresses c := by
  intro h
  obtain ⟨fuel, hreturns⟩ := (h ⟨[0], fun n => n, fun _ => none⟩ [] _ Reaches.start).returns
  refine hreturns (readChunk_not_served (Nat.zero_le _) ?_ ?_)
  · exact not_served_half_header
  · intro breaks
    obtain ⟨_, n, hbreaks⟩ := breaks
    exact hbreaks rfl

end Connection

end NodeFuzzer
