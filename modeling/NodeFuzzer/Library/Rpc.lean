import Mathlib.Data.List.Basic

/-!
# Questions and replies over a connection

A client asks a server one question at a time and waits for the reply.  The server works on one
question after the other, in steps that read a world.  The world is a function of the moment: it
changes as it likes between the moves of the two.

What goes on between the two ends is left open.  A direction of the connection is given by the
histories it may have, and all that is asked of it is that it keeps the order of what is sent, for
as long as neither end has seen an operation fail.  That is enough for every reply to be the one to
the question it is taken for.
-/

namespace NodeFuzzer

namespace Rpc

variable {W Q R P M : Type}

/-! ## A direction of a connection -/

/-- What the two ends of a direction have come to. -/
inductive Event (M : Type) where
  | sent (message : M)
  | received (message : M)
  /-- Sending or receiving ran into a time limit, or the connection was broken. -/
  | failed

/-- What was sent, the first one first. -/
def sent (history : List (Event M)) : List M :=
  history.filterMap fun
    | .sent message => some message
    | _ => none

/-- What was received, the first one first. -/
def received (history : List (Event M)) : List M :=
  history.filterMap fun
    | .received message => some message
    | _ => none

@[simp] theorem sent_append (history more : List (Event M)) :
    sent (history ++ more) = sent history ++ sent more := List.filterMap_append

@[simp] theorem received_append (history more : List (Event M)) :
    received (history ++ more) = received history ++ received more := List.filterMap_append

@[simp] theorem sent_nil : sent ([] : List (Event M)) = [] := rfl

@[simp] theorem received_nil : received ([] : List (Event M)) = [] := rfl

@[simp] theorem sent_sent (message : M) : sent [.sent message] = [message] := rfl

@[simp] theorem sent_received (message : M) : sent [.received message] = [] := rfl

@[simp] theorem received_sent (message : M) : received [.sent message] = [] := rfl

@[simp] theorem received_received (message : M) : received [.received message] = [message] := rfl

/-- A direction of a connection: the histories it may have. -/
def Channel (M : Type) : Type := List (Event M) → Prop

/-- As long as no operation has failed, what was received is what was sent, as far as it has come. -/
def Channel.Ordered (channel : Channel M) : Prop :=
  ∀ history, channel history → .failed ∉ history → received history <+: sent history

/-- The next message that is received is the next one that was sent. -/
theorem Channel.Ordered.next {channel : Channel M} (ordered : channel.Ordered)
    {history : List (Event M)} {message : M} (may : channel (history ++ [.received message]))
    (unfailed : .failed ∉ history ++ [.received message]) :
    (sent history)[(received history).length]? = some message := by
  obtain ⟨later, split⟩ := ordered _ may unfailed
  simp only [received_append, received_received, sent_append, sent_received, List.append_nil,
    List.append_assoc] at split
  rw [← split, List.getElem?_append_right (Nat.le_refl _), Nat.sub_self]
  rfl

/-- A direction that delivers what is sent, in order. -/
def Channel.inOrder : Channel M := fun history => received history <+: sent history

theorem Channel.ordered_inOrder : (Channel.inOrder : Channel M).Ordered := fun _ may _ => may

/-! ## The two ends -/

/-- What a server does next about a question. -/
inductive Next (P R : Type) where
  | works (phase : P)
  | replies (reply : R)
  /-- The server ends, perhaps after a last reply. -/
  | stops (last : Option R)

/-- The reply that is sent. -/
def Next.reply : Next P R → Option R
  | .works _ => none
  | .replies reply => some reply
  | .stops last => last

/-- How a server works on a question. -/
structure Server (W Q R P : Type) where
  start : Q → P
  step : W → P → Next P R

/-- A call of the client that has returned, with the moments it was asked and done at. -/
structure Call (Q R : Type) where
  question : Q
  asked : Nat
  done : Nat
  /-- Nothing when sending or receiving failed. -/
  reply : Option R

/-- The two ends, and what they have come to in both directions.  A question that is waited for
carries the moment it was asked at. -/
structure Link (Q R P : Type) where
  requests : List (Event Q)
  replies : List (Event R)
  serving : Option P
  stopped : Bool
  waiting : Option (Q × Nat)
  log : List (Call Q R)

inductive Move (Q R : Type) where
  | ask (question : Q)
  /-- A question cannot be sent. -/
  | refuse (question : Q)
  | take (reply : R)
  /-- No reply is received. -/
  | giveUp
  | receive (question : Q)
  | work
  /-- The server cannot receive a question or send a reply, and ends. -/
  | fail
  /-- Time passes. -/
  | idle

namespace Link

def new : Link Q R P := ⟨[], [], none, false, none, []⟩

/-- The call that is waited for returns. -/
def returns (l : Link Q R P) (question : Q) (asked now : Nat) (reply : Option R) : Link Q R P :=
  { l with
    waiting := none
    log := l.log ++ [⟨question, asked, now, reply⟩] }

/-- The server takes a step about its question. -/
def worked (l : Link Q R P) : Next P R → Link Q R P
  | .works phase => { l with serving := some phase }
  | .replies reply =>
      { l with
        serving := none
        replies := l.replies ++ [.sent reply] }
  | .stops last =>
      { l with
        serving := none
        replies := l.replies ++ last.toList.map .sent
        stopped := true }

/-- A move at a moment, as far as the two ends are concerned. -/
def step (server : Server W Q R P) (world : Nat → W) (now : Nat) (l : Link Q R P) :
    Move Q R → Option (Link Q R P)
  | .ask question =>
      match l.waiting with
      | some _ => none
      | none =>
          some { l with
            requests := l.requests ++ [.sent question]
            waiting := some (question, now) }
  | .refuse question =>
      match l.waiting with
      | some _ => none
      | none => some ({ l with requests := l.requests ++ [Event.failed] }.returns question now now none)
  | .take reply =>
      match l.waiting with
      | some (question, asked) =>
          some ({ l with replies := l.replies ++ [Event.received reply] }.returns question asked now
            (some reply))
      | none => none
  | .giveUp =>
      match l.waiting with
      | some (question, asked) =>
          some ({ l with replies := l.replies ++ [Event.failed] }.returns question asked now none)
      | none => none
  | .receive question =>
      match l.stopped, l.serving with
      | false, none =>
          some { l with
            requests := l.requests ++ [.received question]
            serving := some (server.start question) }
      | _, _ => none
  | .work =>
      match l.serving with
      | some phase => some (l.worked (server.step (world now) phase))
      | none => none
  | .fail =>
      match l.stopped, l.serving with
      | true, _ => none
      | false, none =>
          some { l with
            requests := l.requests ++ [.failed]
            stopped := true }
      | false, some _ =>
          some { l with
            replies := l.replies ++ [.failed]
            serving := none
            stopped := true }
  | .idle => some l

/-- Every question that was asked, the first one first. -/
def questions (l : Link Q R P) : List (Q × Nat) :=
  l.log.map (fun call => (call.question, call.asked)) ++ l.waiting.toList

/-- No operation of an end has failed. -/
def Unfailed (l : Link Q R P) : Prop := .failed ∉ l.requests ∧ .failed ∉ l.replies

end Link

/-- What may be reached, a moment for each move, when the two directions have only histories that
they may have. -/
inductive Run (server : Server W Q R P) (world : Nat → W) (asking : Channel Q)
    (answering : Channel R) : Nat → Link Q R P → Prop where
  | new : Run server world asking answering 0 .new
  | step {now : Nat} {l l' : Link Q R P} (before : Run server world asking answering now l)
      (move : Move Q R) (step : l.step server world now move = some l')
      (requests : asking l'.requests) (replies : answering l'.replies) :
      Run server world asking answering (now + 1) l'

/-! ## What a reply says -/

variable {server : Server W Q R P} {world : Nat → W}

/-- The server comes from a phase at a moment to another, with the steps it takes between. -/
inductive Works (server : Server W Q R P) (world : Nat → W) : P → Nat → P → Nat → Prop where
  | refl {phase : P} {early late : Nat} (le : early ≤ late) :
      Works server world phase early phase late
  | step {first phase next : P} {early now late : Nat}
      (before : Works server world first early phase now) (le : now ≤ late)
      (step : server.step (world late) phase = .works next) :
      Works server world first early next late

theorem Works.le {first phase : P} {early late : Nat}
    (works : Works server world first early phase late) : early ≤ late := by
  induction works with
  | refl le => exact le
  | step before le step ih => exact Nat.le_trans ih le

/-- The reply is what the server comes to about a question between two moments. -/
def Answers (server : Server W Q R P) (world : Nat → W) (question : Q) (asked : Nat) (reply : R)
    (done : Nat) : Prop :=
  ∃ phase now late, Works server world (server.start question) asked phase now ∧ now ≤ late ∧
    late ≤ done ∧ (server.step (world late) phase).reply = some reply

theorem Answers.later {question : Q} {asked done later : Nat} {reply : R}
    (answers : Answers server world question asked reply done) (le : done ≤ later) :
    Answers server world question asked reply later := by
  obtain ⟨phase, now, late, works, start, stop, sent⟩ := answers
  exact ⟨phase, now, late, works, start, Nat.le_trans stop le, sent⟩

/-! ## The invariant -/

/-- What holds at a moment, as long as nothing has failed: the replies were sent to the questions in
the order these were asked in, and so they were taken. -/
structure Sound (server : Server W Q R P) (world : Nat → W) (now : Nat) (l : Link Q R P) : Prop where
  asked : sent l.requests = l.questions.map Prod.fst
  taken : (received l.replies).length = l.log.length
  past : ∀ question ∈ l.questions, question.2 ≤ now
  replies : ∀ (k : Nat) (reply : R), (sent l.replies)[k]? = some reply →
    ∃ question, l.questions[k]? = some question ∧
      Answers server world question.1 question.2 reply now
  served : l.stopped = false →
    (received l.requests).length = (sent l.replies).length + l.serving.toList.length
  serving : ∀ phase, l.serving = some phase → l.stopped = false ∧
    ∃ question early, l.questions[(sent l.replies).length]? = some question ∧ early ≤ now ∧
      Works server world (server.start question.1) question.2 phase early
  log : ∀ call ∈ l.log, ∃ reply, call.reply = some reply ∧
    Answers server world call.question call.asked reply call.done

theorem sound_new : Sound server world 0 (Link.new : Link Q R P) := by
  refine ⟨rfl, rfl, ?_, ?_, ?_, ?_, ?_⟩
  · intro question mem
    cases mem
  · intro k reply found
    cases found
  · intro _
    rfl
  · intro phase working
    cases working
  · intro call mem
    cases mem

variable {now : Nat} {l l' : Link Q R P}

/-- Moves only add to the histories. -/
theorem Link.Unfailed.before {move : Move Q R} (step : l.step server world now move = some l')
    (unfailed : l'.Unfailed) : l.Unfailed := by
  obtain ⟨requests, replies⟩ := unfailed
  cases move with
  | ask question | refuse question | take reply | giveUp =>
      simp only [Link.step] at step
      split at step <;> cases step
      exact ⟨fun mem => requests (by simp [Link.returns, mem]),
        fun mem => replies (by simp [Link.returns, mem])⟩
  | receive question | fail =>
      simp only [Link.step] at step
      split at step <;> cases step <;>
        exact ⟨fun mem => requests (by simp [mem]), fun mem => replies (by simp [mem])⟩
  | work =>
      simp only [Link.step] at step
      split at step
      next phase _ =>
        cases step
        cases next : server.step (world now) phase <;>
          exact ⟨fun mem => requests (by simp [next, Link.worked, mem]),
            fun mem => replies (by simp [next, Link.worked, mem])⟩
      next => cases step
  | idle =>
      cases step
      exact ⟨requests, replies⟩

namespace Sound

/-- Time passes. -/
theorem later (sound : Sound server world now l) : Sound server world (now + 1) l := by
  obtain ⟨asked, taken, past, replies, served, serving, log⟩ := sound
  refine ⟨asked, taken, fun question mem => Nat.le_succ_of_le (past question mem), ?_, served, ?_,
    log⟩
  · intro k reply found
    obtain ⟨question, place, answers⟩ := replies k reply found
    exact ⟨question, place, answers.later (Nat.le_succ now)⟩
  · intro phase working
    obtain ⟨running, question, early, place, le, works⟩ := serving phase working
    exact ⟨running, question, early, place, Nat.le_succ_of_le le, works⟩

/-- A new question stands behind the others. -/
theorem ask (sound : Sound server world now l) {question : Q} (idle : l.waiting = none) :
    Sound server world now
      { l with
        requests := l.requests ++ [.sent question]
        waiting := some (question, now) } := by
  have longer : ({ l with
      requests := l.requests ++ [.sent question]
      waiting := some (question, now) } : Link Q R P).questions =
        l.questions ++ [(question, now)] := by
    simp [Link.questions, idle]
  have kept : ∀ {k : Nat} {earlier : Q × Nat}, l.questions[k]? = some earlier →
      (l.questions ++ [(question, now)])[k]? = some earlier := by
    intro k earlier found
    rw [List.getElem?_append_left (List.getElem?_eq_some_iff.mp found).1, found]
  obtain ⟨asked, taken, past, replies, served, serving, log⟩ := sound
  refine ⟨?_, taken, ?_, ?_, ?_, ?_, log⟩
  · rw [longer]
    simp [asked]
  · rw [longer]
    intro earlier mem
    rcases List.mem_append.mp mem with mem | mem
    · exact past earlier mem
    · cases List.mem_singleton.mp mem
      exact Nat.le_refl now
  · rw [longer]
    intro k reply found
    obtain ⟨earlier, place, answers⟩ := replies k reply found
    exact ⟨earlier, kept place, answers⟩
  · intro running
    simpa using served running
  · rw [longer]
    intro phase working
    obtain ⟨running, earlier, early, place, le, works⟩ := serving phase working
    exact ⟨running, earlier, early, kept place, le, works⟩

/-- The reply that is taken is the one to the question that is waited for. -/
theorem take (sound : Sound server world now l) {question : Q} {asked : Nat} {reply : R}
    (waiting : l.waiting = some (question, asked))
    (next : (sent l.replies)[(received l.replies).length]? = some reply) :
    Sound server world now
      ({ l with replies := l.replies ++ [Event.received reply] }.returns question asked now
        (some reply)) := by
  have same : ({ l with replies := l.replies ++ [Event.received reply] }.returns question asked now
      (some reply)).questions = l.questions := by
    simp [Link.returns, Link.questions, waiting]
  have last : l.questions[l.log.length]? = some (question, asked) := by
    simp [Link.questions, waiting]
  obtain ⟨asked', taken, past, replies, served, serving, log⟩ := sound
  refine ⟨?_, ?_, ?_, ?_, ?_, ?_, ?_⟩
  · rw [same]
    exact asked'
  · simp [Link.returns, taken]
  · rw [same]
    exact past
  · rw [same]
    simpa [Link.returns] using replies
  · simpa [Link.returns] using served
  · rw [same]
    simpa [Link.returns] using serving
  · intro call mem
    rcases List.mem_append.mp mem with mem | mem
    · exact log call mem
    · rw [List.mem_singleton.mp mem]
      rw [taken] at next
      obtain ⟨own, place, answers⟩ := replies _ _ next
      rw [last] at place
      cases place
      exact ⟨reply, rfl, answers⟩

/-- The question that is received is the first one that is not served. -/
theorem receive (sound : Sound server world now l) {question : Q} (running : l.stopped = false)
    (idle : l.serving = none)
    (next : (sent l.requests)[(received l.requests).length]? = some question) :
    Sound server world now
      { l with
        requests := l.requests ++ [.received question]
        serving := some (server.start question) } := by
  obtain ⟨asked, taken, past, replies, served, serving, log⟩ := sound
  have count := served running
  rw [idle] at count
  refine ⟨?_, taken, past, replies, ?_, ?_, log⟩
  · simpa [Link.questions] using asked
  · intro _
    simp [count]
  · intro phase working
    cases working
    rw [asked, count, List.getElem?_map] at next
    obtain ⟨first, place, rfl⟩ := Option.map_eq_some_iff.mp next
    exact ⟨running, first, now, place, Nat.le_refl now,
      .refl (past first (List.mem_of_getElem? place))⟩

/-- The server goes on, replies or ends. -/
theorem work (sound : Sound server world now l) {phase : P} (working : l.serving = some phase) :
    Sound server world now (l.worked (server.step (world now) phase)) := by
  obtain ⟨asked, taken, past, replies, served, serving, log⟩ := sound
  obtain ⟨running, question, early, place, le, works⟩ := serving phase working
  have count := served running
  rw [working] at count
  -- A reply stands behind those that were sent, as its question does behind theirs.
  have longer : ∀ reply, (server.step (world now) phase).reply = some reply →
      ∀ (k : Nat) (sent' : R), (sent l.replies ++ [reply])[k]? = some sent' →
        ∃ question, l.questions[k]? = some question ∧
          Answers server world question.1 question.2 sent' now := by
    intro reply comes k sent' found
    rcases Nat.lt_or_ge k (sent l.replies).length with before | behind
    · rw [List.getElem?_append_left before] at found
      exact replies k sent' found
    · rw [List.getElem?_append_right behind] at found
      have here : k = (sent l.replies).length := by
        have bound := (List.getElem?_eq_some_iff.mp found).1
        rw [List.length_singleton] at bound
        omega
      rw [here, Nat.sub_self] at found
      cases found
      rw [here]
      exact ⟨question, place, phase, early, now, works, le, Nat.le_refl now, comes⟩
  cases next : server.step (world now) phase with
  | works later =>
      refine ⟨asked, taken, past, replies, fun _ => count, ?_, log⟩
      intro phase' working'
      cases working'
      exact ⟨running, question, now, place, Nat.le_refl now, .step works le next⟩
  | replies reply =>
      refine ⟨asked, ?_, past, ?_, ?_, ?_, log⟩
      · simpa [Link.worked] using taken
      · simpa [Link.worked, Link.questions] using longer reply (by rw [next]; rfl)
      · intro _
        simpa [Link.worked] using count
      · intro phase' working'
        cases working'
  | stops last =>
      refine ⟨asked, ?_, past, ?_, ?_, ?_, log⟩
      · cases last <;> simpa [Link.worked] using taken
      · cases last with
        | none => simpa [Link.worked, Link.questions] using replies
        | some reply => simpa [Link.worked, Link.questions] using longer reply (by rw [next]; rfl)
      · intro running'
        cases running'
      · intro phase' working'
        cases working'

end Sound

variable {asking : Channel Q} {answering : Channel R}

/-- What one move keeps. -/
theorem Sound.step (ordered : asking.Ordered) (ordered' : answering.Ordered) {move : Move Q R}
    (sound : Sound server world now l) (step : l.step server world now move = some l')
    (requests : asking l'.requests) (replies : answering l'.replies) (unfailed : l'.Unfailed) :
    Sound server world (now + 1) l' := by
  suffices Sound server world now l' from this.later
  cases move with
  | ask question =>
      simp only [Link.step] at step
      split at step
      next => cases step
      next idle =>
        cases step
        exact sound.ask idle
  | take reply =>
      simp only [Link.step] at step
      split at step
      next waiting =>
        cases step
        exact sound.take waiting (ordered'.next replies unfailed.2)
      next => cases step
  | receive question =>
      simp only [Link.step] at step
      split at step
      next running idle =>
        cases step
        exact sound.receive running idle (ordered.next requests unfailed.1)
      next => cases step
  | work =>
      simp only [Link.step] at step
      split at step
      next working =>
        cases step
        exact sound.work working
      next => cases step
  | refuse question =>
      simp only [Link.step] at step
      split at step
      next => cases step
      next =>
        cases step
        exact absurd (by simp [Link.returns]) unfailed.1
  | giveUp =>
      simp only [Link.step] at step
      split at step
      next =>
        cases step
        exact absurd (by simp [Link.returns]) unfailed.2
      next => cases step
  | fail =>
      simp only [Link.step] at step
      split at step
      next => cases step
      next =>
        cases step
        exact absurd (by simp) unfailed.1
      next =>
        cases step
        exact absurd (by simp) unfailed.2
  | idle =>
      cases step
      exact sound

theorem Run.sound (ordered : asking.Ordered) (ordered' : answering.Ordered)
    (run : Run server world asking answering now l) (unfailed : l.Unfailed) :
    Sound server world now l := by
  induction run with
  | new => exact sound_new
  | step before move step requests replies ih =>
      exact (ih (unfailed.before step)).step ordered ordered' step requests replies unfailed

/-- Over a connection that keeps the order of what is sent, and until an operation fails, every call
takes the reply to its own question, which the server came to during the call. -/
theorem answered (ordered : asking.Ordered) (ordered' : answering.Ordered)
    (run : Run server world asking answering now l) (unfailed : l.Unfailed) {call : Call Q R}
    (mem : call ∈ l.log) {reply : R} (took : call.reply = some reply) :
    Answers server world call.question call.asked reply call.done := by
  obtain ⟨own, took', answers⟩ := (run.sound ordered ordered' unfailed).log call mem
  rw [took] at took'
  cases took'
  exact answers

end Rpc

end NodeFuzzer
