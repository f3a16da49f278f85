import NodeFuzzer.Context.Ownership

/-!
# Ids that come back

An id that is handed out joins the new ids of the running cycle.  The start of a cycle sends
these to the thread, seven slots later they leave the oldest one, and the queue hands them
out again.  `get_vacant_entry_hash` then sets the place of the id in the values, which only
a write makes longer.

`HandedAgo` counts the cycles that were started since an id was handed out.  An id that is
not reached by the values has the age of the place it stands in: in a command, as many
starts as were sent from there on, and in a slot those still to be taken and the slots
passed.  So when it leaves the oldest slot it is eight starts old, and a write that comes
before that is in time.
-/

namespace NodeFuzzer

namespace Command

/-- The command starts a cycle. -/
def starts : Command → Bool
  | .startNewCycle _ _ => true
  | .markReused _ => false

end Command

namespace Cycles

/-- What stands in the slots, by their numbers. -/
def Holds (P : Nat → HashId → Option Serialized → Prop) (c : Cycles) : Prop :=
  ∀ i slot, c.list[i]? = some slot → ∀ id value, slot.get id = some value → P i id value

theorem getElem?_list (c : Cycles) (i : Nat) :
    c.list[i]? = if i < 6 then c.older[i]? else if i = 6 then some c.last else none := by
  have size : c.older.length = 6 := Nat.succ.inj c.size
  rw [list, List.getElem?_append, size]
  split
  next => rfl
  next high =>
    split
    next last => rw [last]; rfl
    next past => exact List.getElem?_eq_none (by simp only [List.length_singleton]; omega)

section Holds

variable {P P' : Nat → HashId → Option Serialized → Prop} {c : Cycles}

theorem Holds.mono (holds : c.Holds P) (le : ∀ i id value, P i id value → P' i id value) :
    c.Holds P' :=
  fun i slot hi id value get => le i id value (holds i slot hi id value get)

/-- An id moves with its value, so what holds of ids with a value goes on to hold. -/
theorem Holds.moveToLastCycle (holds : c.Holds P)
    (free : ∀ i j id value, P i id (some value) → P j id (some value)) (hashId : HashId) :
    (c.moveToLastCycle hashId).2.Holds P := by
  have moved := c.moveToLastCycle_moved hashId
  revert moved
  rcases c.moveToLastCycle hashId with ⟨value, c'⟩
  intro moved
  -- The older slots only lose the id.
  have older : ∀ {i slot}, c'.older = c.older.map (fun slot => slot.remove hashId) → i < 6 →
      c'.list[i]? = some slot → ∀ id value, slot.get id = some value → P i id value := by
    intro i slot same low hi id value get
    rw [getElem?_list, if_pos low, same, List.getElem?_map, Option.map_eq_some_iff] at hi
    obtain ⟨before, hbefore, rfl⟩ := hi
    rw [OrdMap.get_remove] at get
    split at get
    next => cases get
    next => exact holds i before (by rw [getElem?_list, if_pos low, hbefore]) id value get
  have last : ∀ {id value}, c.last.get id = some value → P 6 id value :=
    fun get => holds 6 c.last (by rw [getElem?_list, if_neg (by decide), if_pos rfl]) _ _ get
  intro i slot hi id value get
  by_cases low : i < 6
  · cases moved with
    | dropped same _ _ => exact older same low hi id value get
    | moved same _ _ _ => exact older same low hi id value get
  · have lastSlot : c'.list[i]? = _ := getElem?_list c' i
    rw [if_neg low] at lastSlot
    split at lastSlot
    next is6 =>
      subst is6
      rw [lastSlot, Option.some.injEq] at hi
      subst hi
      cases moved with
      | dropped _ same _ =>
          rw [same] at get
          exact last get
      | @moved _ slot' value' _ same mem held =>
          rw [same, OrdMap.get_insert] at get
          split at get
          next heq =>
            subst heq
            cases get
            obtain ⟨j, lt, hj⟩ := List.mem_iff_getElem.mp mem
            have size : c.older.length = 6 := Nat.succ.inj c.size
            refine free j 6 _ _ (holds j slot' ?_ _ _ held)
            rw [getElem?_list, if_pos (size ▸ lt), List.getElem?_eq_getElem lt, hj]
          next => exact last get
    next =>
      rw [lastSlot] at hi
      cases hi

theorem Holds.markReusedLoop (holds : c.Holds P)
    (free : ∀ i j id value, P i id (some value) → P j id (some value)) (fuel : Nat)
    (reused : List HashId) : (GCThread.markReusedLoop fuel reused c).Holds P := by
  induction fuel generalizing reused c with
  | zero => exact holds
  | succ fuel ih =>
      cases reused with
      | nil => exact holds
      | cons hashId reused =>
          have first := holds.moveToLastCycle free hashId
          rw [GCThread.markReusedLoop]
          split
          next c' hmove =>
            rw [hmove] at first
            exact ih first reused
          next value c' hmove =>
            rw [hmove] at first
            exact ih first _

/-- The slot of a cycle that ended has the values of the cycle, and none for new ids. -/
theorem get_orInsert (newIds : List HashId) (values : CycleMap) {id : HashId}
    {value : Option Serialized}
    (get : (newIds.foldl (fun map hashId =>
      match map.get hashId with
      | some _ => map
      | none => map.insert hashId none) values).get id = some value) :
    values.get id = some value ∨ value = none ∧ id ∈ newIds := by
  induction newIds generalizing values with
  | nil => exact Or.inl get
  | cons hashId newIds ih =>
      rw [List.foldl_cons] at get
      rcases ih _ get with here | ⟨none, mem⟩
      · split at here
        next => exact Or.inl here
        next =>
          rw [OrdMap.get_insert] at here
          split at here
          next heq =>
            cases here
            exact Or.inr ⟨rfl, heq ▸ List.mem_cons_self⟩
          next => exact Or.inl here
      · exact Or.inr ⟨none, List.mem_cons_of_mem _ mem⟩

/-- When a cycle starts, the slots move by one, and the last one is new. -/
theorem Holds.startNewCycle (holds : c.Holds P) {values : CycleMap} {newIds : List HashId}
    (older : ∀ i id value, P (i + 1) id value → P' i id value)
    (last : ∀ id value, values.get id = some value ∨ value = none ∧ id ∈ newIds → P' 6 id value) :
    (GCThread.startNewCycle c values newIds).2.Holds P' := by
  intro i slot hi id value get
  rw [getElem?_list] at hi
  split at hi
  next low =>
    change c.list.tail[i]? = some slot at hi
    rw [List.getElem?_tail] at hi
    exact older i id value (holds (i + 1) slot hi id value get)
  next =>
    split at hi
    next is6 =>
      subst is6
      cases hi
      exact last id value (get_orInsert newIds values get)
    next => cases hi

/-- The ids that leave the oldest slot stood there. -/
theorem Holds.rolled (holds : c.Holds P) {values : CycleMap} {newIds : List HashId} {id : HashId}
    (mem : id ∈ (GCThread.startNewCycle c values newIds).1) : ∃ value, P 0 id value := by
  change id ∈ (c.older.headD c.last).keys at mem
  obtain ⟨value, get⟩ := OrdMap.mem_keys.mp mem
  refine ⟨value, holds 0 _ ?_ id value get⟩
  rw [list]
  cases c.older <;> rfl

end Holds

end Cycles

namespace HashValueStore

theorem values_reusedEntry (id : HashId) (hash : EntryHash) (s : HashValueStore) :
    (reusedEntry id hash s).2.values.length = s.values.length := by
  unfold reusedEntry
  split
  · split
    · exact List.length_set
    · exact List.length_set
  · rfl

theorem values_freshEntry (hash : EntryHash) (s : HashValueStore) :
    (freshEntry hash s).2.values.length = s.values.length := by
  unfold freshEntry
  split
  · split <;> rfl
  · rfl

/-- Handing out ids leaves the values as long as they are. -/
theorem values_getVacantEntryHash (hash : EntryHash) (s : HashValueStore) :
    (getVacantEntryHash hash s).2.values.length = s.values.length := by
  show (Exec.bind getFreeId _ s).2.values.length = _
  unfold Exec.bind getFreeId
  cases hfree : s.freeIds with
  | none => exact values_freshEntry hash s
  | some queue =>
      cases queue with
      | nil => exact values_freshEntry hash s
      | cons id rest => exact values_reusedEntry id hash { s with freeIds := some rest }

end HashValueStore

namespace System

/-! ## The age of an id -/

/-- Starts of a cycle that the thread has not taken. -/
def startsWaiting (s : System) : Nat := s.channel.countP Command.starts

/-- The next step of the thread takes the start of a cycle. -/
def TakesStart (s : System) : Prop :=
  s.gc.state = .receiving ∧ (s.channel.head?.any Command.starts)

/-- The values reach the id. -/
def Inside (s : System) (id : HashId) : Prop := id.index < s.store.hashes.values.length

section Runs

variable [Digest]

/-- The call hands the id out. -/
def HandsOut (s : System) (hash : EntryHash) (id : HashId) : Prop :=
  (HashValueStore.getVacantEntryHash hash s.store.hashes).1 = .ok id

/-- The id was handed out in a run, and `n` cycles at least were started since. -/
def HandedAgo (start : System) (acts : List Act) (id : HashId) (n : Nat) : Prop :=
  ∃ first hash since, acts = first ++ .alloc hash :: since ∧
    (start.afterActs first).HandsOut hash id ∧ n ≤ since.count .newCycle

end Runs

/-- A run writes the id or a later one. -/
def WritesUpTo (acts : List Act) (id : HashId) : Prop :=
  ∃ batch, .write batch ∈ acts ∧ ∃ p ∈ batch, id.index ≤ p.1.index

/-- Ids are written after they were handed out.  Before the thread takes the eighth start of a
cycle since an id was handed out, the id or a later one is written. -/
structure WrittenInTime [Digest] (start : System) (acts : List Act) : Prop where
  handed : ∀ before batch after, acts = before ++ .write batch :: after →
    ∀ p ∈ batch, p.1.index < (start.afterActs before).store.hashes.hashes.length
  written : ∀ before after id, acts = before ++ .gc :: after →
    (start.afterActs before).TakesStart →
    HandedAgo start before id ((start.afterActs before).startsWaiting + 7) →
    WritesUpTo before id

section Aging

variable [Digest] {start : System} {acts : List Act} {s : System} {id : HashId} {n : Nat}

theorem afterActs_snoc (start : System) (acts : List Act) (a : Act) :
    start.afterActs (acts ++ [a]) = (start.afterActs acts).act a := by
  rw [afterActs, List.foldl_append]
  rfl

theorem WrittenInTime.init {a : Act} (inTime : WrittenInTime start (acts ++ [a])) :
    WrittenInTime start acts := by
  refine ⟨fun before batch after h => ?_, fun before after id h => ?_⟩
  · exact inTime.handed before batch (after ++ [a]) (by rw [h, List.append_assoc]; rfl)
  · exact inTime.written before (after ++ [a]) id (by rw [h, List.append_assoc]; rfl)

theorem HandedAgo.le {m : Nat} (handed : HandedAgo start acts id n) (le : m ≤ n) :
    HandedAgo start acts id m := by
  obtain ⟨first, hash, since, split, hands, starts⟩ := handed
  exact ⟨first, hash, since, split, hands, le.trans starts⟩

theorem HandedAgo.snoc (handed : HandedAgo start acts id n) (a : Act) :
    HandedAgo start (acts ++ [a]) id (n + if a = .newCycle then 1 else 0) := by
  obtain ⟨first, hash, since, rfl, hands, starts⟩ := handed
  refine ⟨first, hash, since ++ [a], by rw [List.append_assoc]; rfl, hands, ?_⟩
  rw [List.count_append, List.count_singleton]
  exact Nat.add_le_add starts (le_of_eq (by simp))

theorem HandedAgo.later (handed : HandedAgo start acts id n) (a : Act) :
    HandedAgo start (acts ++ [a]) id n :=
  (handed.snoc a).le (Nat.le_add_right ..)

/-- Ids that the values do not reach have the age of the place they stand in, and none of them
is free. -/
structure Aging (start : System) (acts : List Act) (s : System) : Prop where
  bounded : s.store.hashes.Bounded
  free : ∀ id ∈ s.free, s.Inside id
  newIds : ∀ id ∈ s.store.hashes.newIds, s.Inside id ∨ HandedAgo start acts id 0
  currentCycle : ∀ id value, s.store.currentCycle.get id = some value → s.Inside id
  commands : ∀ sent values newIds later, s.channel = sent ++ .startNewCycle values newIds :: later →
    (∀ id value, values.get id = some value → s.Inside id) ∧
      ∀ id ∈ newIds, s.Inside id ∨ HandedAgo start acts id (later.countP Command.starts + 1)
  slots : s.gc.cycles.Holds fun i id value =>
    s.Inside id ∨ value = none ∧ HandedAgo start acts id (s.startsWaiting + (7 - i))

theorem aging_new (disabled : Bool) (schedule : List Nat) :
    Aging (new disabled schedule) [] (new disabled schedule) := by
  have nothing : (new disabled schedule).free = [] ∧ (new disabled schedule).channel = [] := by
    cases disabled <;> exact ⟨rfl, rfl⟩
  refine ⟨⟨Nat.zero_le _, Nat.zero_le _⟩, ?_, ?_, ?_, ?_, ?_⟩
  · rw [nothing.1]
    exact fun _ mem => absurd mem List.not_mem_nil
  · exact fun _ mem => absurd mem List.not_mem_nil
  · intro id value get
    cases get
  · intro sent values newIds later split
    rw [nothing.2] at split
    exact absurd split.symm (List.append_ne_nil_of_right_ne_nil _ (List.cons_ne_nil _ _))
  · intro i slot hi id value get
    have empty : slot = .empty := by
      rw [Cycles.getElem?_list] at hi
      split at hi
      next =>
        have mem := List.mem_of_getElem? hi
        exact List.eq_of_mem_replicate mem
      next =>
        split at hi
        next => cases hi; rfl
        next => cases hi
    rw [empty, OrdMap.get_empty] at get
    cases get

/-- A call that leaves places and the thread alone. -/
theorem Aging.mono (aging : Aging start acts s) {a : Act} {m : InMemory}
    (bounded : m.hashes.Bounded)
    (longer : s.store.hashes.values.length ≤ m.hashes.values.length)
    (free : ∀ id ∈ m.hashes.freeIds.getD [], id ∈ s.queue)
    (newIds : ∀ id ∈ m.hashes.newIds,
      id ∈ s.store.hashes.newIds ∨ HandedAgo start (acts ++ [a]) id 0)
    (currentCycle : ∀ id value, m.currentCycle.get id = some value →
      s.store.currentCycle.get id = some value ∨ id.index < m.hashes.values.length)
    (sender : m.sender = s.store.sender) :
    Aging start (acts ++ [a]) (s.withStore m) := by
  have inside : ∀ {id}, s.Inside id → (s.withStore m).Inside id := fun h => h.trans_le longer
  have older : ∀ {id n}, s.Inside id ∨ HandedAgo start acts id n →
      (s.withStore m).Inside id ∨ HandedAgo start (acts ++ [a]) id n :=
    fun h => h.imp inside fun handed => handed.later a
  have channel : (s.withStore m).channel = s.channel := congrArg (Option.getD · []) sender
  refine ⟨bounded, fun id mem => ?_, fun id mem => ?_, fun id value get => ?_, ?_, ?_⟩
  · rcases List.mem_append.mp mem with mem | mem
    · exact inside (aging.free id (List.mem_append_left _ (free id mem)))
    · exact inside (aging.free id (List.mem_append_right _ mem))
  · rcases newIds id mem with mem | handed
    · exact older (aging.newIds id mem)
    · exact Or.inr handed
  · rcases currentCycle id value get with get | here
    · exact inside (aging.currentCycle id value get)
    · exact here
  · intro sent values ids later split
    rw [channel] at split
    obtain ⟨written, new⟩ := aging.commands sent values ids later split
    exact ⟨fun id value get => inside (written id value get), fun id mem => older (new id mem)⟩
  · refine aging.slots.mono fun i id value holds => ?_
    rw [startsWaiting, channel]
    exact holds.imp inside fun h => ⟨h.1, h.2.later a⟩

theorem Aging.alloc (aging : Aging start acts (start.afterActs acts)) (hash : EntryHash) :
    Aging start (acts ++ [.alloc hash]) ((start.afterActs acts).act (.alloc hash)) := by
  have length := HashValueStore.values_getVacantEntryHash hash (start.afterActs acts).store.hashes
  have handed := HashValueStore.getVacantEntryHash_handed hash aging.bounded
  have sent : ∀ o h, HashValueStore.Handed (start.afterActs acts).store.hashes o h →
      h.values.length = (start.afterActs acts).store.hashes.values.length →
      (∀ id, o = some id → (start.afterActs acts).HandsOut hash id) →
      Aging start (acts ++ [.alloc hash]) ((start.afterActs acts).withHashes h) := by
    intro o h handed length hands
    refine aging.mono (handed.bounded aging.bounded) length.ge (fun id mem => handed.mem_queue mem)
      ?_ (fun id value get => Or.inl get) rfl
    have new : ∀ id, o = some id → h.newIds = (start.afterActs acts).store.hashes.newIds ++ [id] →
        ∀ j ∈ h.newIds, j ∈ (start.afterActs acts).store.hashes.newIds ∨
          HandedAgo start (acts ++ [.alloc hash]) j 0 := by
      intro id ok newIds j mem
      rw [newIds] at mem
      rcases List.mem_append.mp mem with mem | mem
      · exact Or.inl mem
      · rw [List.mem_singleton.mp mem]
        exact Or.inr ⟨acts, hash, [], rfl, hands id ok, Nat.zero_le _⟩
    cases handed with
    | reused _ vacated _ _ => exact new _ rfl vacated.newIds
    | lost _ _ => exact fun id mem => Or.inl mem
    | fresh _ vacated _ _ _ => exact new _ rfl vacated.newIds
    | full _ _ => exact fun id mem => Or.inl mem
  refine Exec.wp_state (P := fun h => Aging start (acts ++ [.alloc hash])
    ((start.afterActs acts).withHashes h)) ?_
  unfold Exec.wp at handed ⊢
  rcases hcall : HashValueStore.getVacantEntryHash hash (start.afterActs acts).store.hashes
    with ⟨outcome, h⟩
  rw [hcall] at handed length
  cases outcome with
  | ok id =>
      refine sent _ h handed length fun j heq => ?_
      cases heq
      exact congrArg Prod.fst hcall
  | err e => exact sent _ h handed length fun j heq => absurd heq.symm (Option.some_ne_none j)
  | panic => exact sent _ h handed length fun j heq => absurd heq.symm (Option.some_ne_none j)

theorem Aging.write (aging : Aging start acts s) {batch : List (HashId × Serialized)}
    (handed : ∀ p ∈ batch, p.1.index < s.store.hashes.hashes.length) :
    Aging start (acts ++ [.write batch]) (s.act (.write batch)) := by
  obtain ⟨_, freeIds, newIds⟩ := InMemory.writeBatch_hashes batch s.store
  obtain ⟨longer, reaches⟩ := InMemory.values_writeBatch batch s.store
  refine aging.mono (InMemory.writeBatch_bounded aging.bounded handed) longer (fun id mem => ?_)
    (fun id mem => Or.inl ?_) (fun id value get => ?_) (InMemory.writeBatch_sender batch s.store)
  · rw [freeIds] at mem
    exact mem
  · rw [newIds] at mem
    exact mem
  · rcases InMemory.writeBatch_currentCycle batch s.store id with ⟨same, _⟩ | ⟨written, mem, _, _⟩
    · exact Or.inl (same ▸ get)
    · exact Or.inr (reaches _ mem)

theorem Aging.put (aging : Aging start acts s) (commitHashId : HashId) :
    Aging start (acts ++ [.put commitHashId]) (s.act (.put commitHashId)) := by
  have same : ∀ m : InMemory, m.hashes = s.store.hashes → m.currentCycle = s.store.currentCycle →
      m.sender = s.store.sender → Aging start (acts ++ [.put commitHashId]) (s.withStore m) := by
    intro m hashes currentCycle sender
    refine aging.mono (hashes ▸ aging.bounded) (le_of_eq (by rw [hashes])) (fun id mem => ?_)
      (fun id mem => Or.inl ?_) (fun id value get => Or.inl ?_) sender
    · rw [hashes] at mem
      exact mem
    · rw [hashes] at mem
      exact mem
    · rw [currentCycle] at get
      exact get
  rw [act, InMemory.putContextHash]
  cases s.store.hashes.getHash commitHashId with
  | none => exact same _ rfl rfl rfl
  | some commitHash => exact same _ rfl rfl rfl

omit [Digest] in
/-- A command of a channel that one more was sent to is the last one, or was there before. -/
theorem split_snoc {channel sent later : List Command} {command last : Command}
    (split : channel ++ [last] = sent ++ command :: later) :
    later = [] ∧ channel = sent ∧ last = command ∨
      ∃ rest, later = rest ++ [last] ∧ channel = sent ++ command :: rest := by
  rcases List.eq_nil_or_concat' later with rfl | ⟨rest, x, rfl⟩
  · obtain ⟨front, same⟩ := List.append_inj' split rfl
    exact Or.inl ⟨rfl, front, List.singleton_inj.mp same⟩
  · rw [← List.cons_append, ← List.append_assoc] at split
    obtain ⟨front, same⟩ := List.append_inj' split rfl
    exact Or.inr ⟨rest, by rw [List.singleton_inj.mp same], front⟩

/-- A command joins the channel. -/
theorem Aging.applied (aging : Aging start acts s) (reused : List HashId) :
    Aging start (acts ++ [.applied reused]) (s.act (.applied reused)) := by
  have waiting : (s.act (.applied reused)).startsWaiting = s.startsWaiting := by
    rcases channel_send s (.markReused reused) with same | more
    · exact congrArg (List.countP Command.starts) same
    · rw [startsWaiting, act, InMemory.blockApplied, more, List.countP_append]
      rfl
  refine ⟨aging.bounded, aging.free, fun id mem => ?_, aging.currentCycle, ?_, ?_⟩
  · exact (aging.newIds id mem).imp_right fun handed => handed.later _
  · intro sent values newIds later split
    have before : ∃ rest, s.channel = sent ++ .startNewCycle values newIds :: rest ∧
        rest.countP Command.starts = later.countP Command.starts := by
      rcases channel_send s (.markReused reused) with same | more
      · exact ⟨later, by rw [← same]; exact split, rfl⟩
      · change (s.withStore (s.store.send _)).channel = _ at split
        rw [more] at split
        rcases split_snoc split with ⟨_, _, last⟩ | ⟨rest, rfl, front⟩
        · cases last
        · refine ⟨rest, front, ?_⟩
          rw [List.countP_append]
          rfl
    obtain ⟨rest, split, count⟩ := before
    obtain ⟨written, new⟩ := aging.commands sent values newIds rest split
    rw [← count]
    exact ⟨written, fun id mem => (new id mem).imp_right fun handed => handed.later _⟩
  · refine aging.slots.mono fun i id value holds => ?_
    rw [waiting]
    exact holds.imp_right fun h => ⟨h.1, h.2.later _⟩

/-- The ids of the running cycle go to the thread, and all others are one cycle older. -/
theorem Aging.newCycle (aging : Aging start acts s) :
    Aging start (acts ++ [.newCycle]) (s.act .newCycle) := by
  have older : ∀ {id n}, s.Inside id ∨ HandedAgo start acts id n →
      s.Inside id ∨ HandedAgo start (acts ++ [.newCycle]) id (n + 1) :=
    fun h => h.imp_right fun handed => handed.snoc .newCycle
  have still : ∀ {id n}, s.Inside id ∨ HandedAgo start acts id n →
      s.Inside id ∨ HandedAgo start (acts ++ [.newCycle]) id n :=
    fun h => h.imp_right fun handed => handed.later _
  rw [act, InMemory.newCycleStarted]
  cases hsender : s.store.sender with
  | none =>
      exact ⟨aging.bounded, aging.free, fun id mem => still (aging.newIds id mem),
        aging.currentCycle, fun sent values newIds later split =>
          ⟨(aging.commands sent values newIds later split).1, fun id mem =>
            still ((aging.commands sent values newIds later split).2 id mem)⟩,
        aging.slots.mono fun i id value holds => holds.imp_right fun h => ⟨h.1, h.2.later _⟩⟩
  | some channel =>
      have hchannel : s.channel = channel := by rw [System.channel, hsender]; rfl
      refine ⟨aging.bounded, aging.free, fun id mem => absurd mem List.not_mem_nil, ?_, ?_, ?_⟩
      · intro id value get
        cases get
      · intro sent values newIds later split
        change channel ++ [_] = _ at split
        rcases split_snoc split with ⟨rfl, _, last⟩ | ⟨rest, rfl, front⟩
        · cases last
          exact ⟨aging.currentCycle, fun id mem => older (aging.newIds id mem)⟩
        · obtain ⟨written, new⟩ := aging.commands sent values newIds rest (hchannel.trans front)
          refine ⟨written, fun id mem => ?_⟩
          rw [List.countP_append]
          exact older (new id mem)
      · refine aging.slots.mono fun i id value holds => holds.imp_right fun h => ⟨h.1, ?_⟩
        show HandedAgo _ _ _ ((channel ++ [_]).countP Command.starts + (7 - i))
        rw [List.countP_append, ← hchannel]
        refine (h.2.snoc .newCycle).le (le_of_eq ?_)
        show _ + 1 + _ = s.channel.countP Command.starts + (7 - i) + 1
        omega

/-- Nothing makes the values shorter. -/
theorem values_act (s : System) (a : Act) :
    s.store.hashes.values.length ≤ (s.act a).store.hashes.values.length := by
  cases a with
  | alloc hash => exact (HashValueStore.values_getVacantEntryHash hash s.store.hashes).ge
  | write batch => exact (InMemory.values_writeBatch batch s.store).1
  | put commitHashId =>
      rw [act, InMemory.putContextHash]
      cases s.store.hashes.getHash commitHashId <;> exact le_refl _
  | applied reused => exact le_refl _
  | newCycle =>
      rw [act, InMemory.newCycleStarted]
      cases s.store.sender <;> exact le_refl _
  | gc => exact le_of_eq (congrArg List.length (gcStep_spec s).beside.values.symm)

/-- The values reach what was written, and every id before that. -/
theorem inside_of_writesUpTo (writes : WritesUpTo acts id) : (start.afterActs acts).Inside id := by
  obtain ⟨batch, mem, p, hp, le⟩ := writes
  induction acts using List.reverseRecOn with
  | nil => cases mem
  | append_singleton acts a ih =>
      rw [afterActs_snoc]
      rcases List.mem_append.mp mem with mem | mem
      · exact (ih mem).trans_le (values_act _ a)
      · rw [← List.mem_singleton.mp mem]
        exact lt_of_le_of_lt le ((InMemory.values_writeBatch batch _).2 p hp)

/-- When an id leaves the oldest slot, the eighth start of a cycle since it was handed out is
taken, so that the values have reached it. -/
theorem Aging.rolledOut (aging : Aging start acts s)
    (written : ∀ id, s.TakesStart → HandedAgo start acts id (s.startsWaiting + 7) → s.Inside id) :
    ∀ id ∈ s.rolledOut, s.Inside id := by
  intro id mem
  rw [System.rolledOut] at mem
  cases hstate : s.gc.state with
  | receiving =>
      cases hchannel : s.channel with
      | nil =>
          rw [hstate, hchannel] at mem
          cases mem
      | cons command rest =>
          rw [hstate, hchannel] at mem
          cases command with
          | startNewCycle values newIds =>
              obtain ⟨value, inside | ⟨_, handed⟩⟩ := aging.slots.rolled mem
              · exact inside
              · exact written id ⟨hstate, by rw [hchannel]; rfl⟩ handed
          | markReused reused => cases mem
  | unused ids => rw [hstate] at mem; cases mem
  | sendUnused ids navailable => rw [hstate] at mem; cases mem
  | pending => rw [hstate] at mem; cases mem
  | sendPending navailable => rw [hstate] at mem; cases mem

omit [Digest] in
/-- The thread takes commands from the front of the channel. -/
theorem GcStep.channel {s' : System} (step : GcStep s s') : ∃ taken, s.channel = taken ++ s'.channel := by
  cases step with
  | none => exact ⟨[], rfl⟩
  | step moves =>
      cases moves with
      | @roll values newIds rest _ command => exact ⟨[.startNewCycle values newIds], command⟩
      | @mark reused rest _ command => exact ⟨[.markReused reused], command⟩
      | send _ => exact ⟨[], rfl⟩

/-- What the thread takes from the command stands in the last slot, and the others move on. -/
theorem Aging.slots_gcStep (aging : Aging start acts s) {s' : System} (step : GcStep s s') :
    s'.gc.cycles.Holds fun i id value =>
      s.Inside id ∨ value = none ∧ HandedAgo start acts id (s'.startsWaiting + (7 - i)) := by
  cases step with
  | none => exact aging.slots
  | @step gc channel' queue' moves =>
      cases moves with
      | @roll values newIds _ receiving command =>
          have waiting : s.startsWaiting = channel'.countP Command.starts + 1 := by
            rw [startsWaiting, command, List.countP_cons]
            rfl
          obtain ⟨written, new⟩ := aging.commands [] values newIds channel' command
          refine aging.slots.startNewCycle (fun i id value holds => ?_) fun id value stands => ?_
          · refine holds.imp_right fun h => ⟨h.1, h.2.le ?_⟩
            show channel'.countP Command.starts + (7 - i) ≤ _
            rw [waiting]
            omega
          · rcases stands with get | ⟨none, mem⟩
            · exact Or.inl (written id value get)
            · exact (new id mem).imp_right fun handed => ⟨none, handed⟩
      | @mark reused _ receiving command =>
          have waiting : s.startsWaiting = channel'.countP Command.starts := by
            rw [startsWaiting, command, List.countP_cons]
            rfl
          have slots := aging.slots
          rw [waiting] at slots
          refine slots.markReusedLoop (fun i j id value holds => Or.inl ?_) _ _
          exact holds.elim (fun inside => inside) fun h => absurd h.1 (Option.some_ne_none value)
      | send _ => exact aging.slots

/-- A step of the thread takes a command, and moves what stands in the slots. -/
theorem Aging.gc (aging : Aging start acts s)
    (written : ∀ id, s.TakesStart → HandedAgo start acts id (s.startsWaiting + 7) → s.Inside id) :
    Aging start (acts ++ [.gc]) (s.act .gc) := by
  have step := gcStep_spec s
  have beside := step.beside
  have bounded : (s.act .gc).store.hashes.Bounded := by
    show HashValueStore.Bounded s.gcStep.store.hashes
    rw [HashValueStore.Bounded, beside.hashes, beside.values]
    exact aging.bounded
  have inside : ∀ {id}, s.Inside id → (s.act .gc).Inside id := by
    intro id h
    show _ < s.gcStep.store.hashes.values.length
    rw [beside.values]
    exact h
  have still : ∀ {id n}, s.Inside id ∨ HandedAgo start acts id n →
      (s.act .gc).Inside id ∨ HandedAgo start (acts ++ [.gc]) id n :=
    fun h => h.imp inside fun handed => handed.later .gc
  refine ⟨bounded, fun id mem => ?_, fun id mem => ?_, fun id value get => ?_, ?_, ?_⟩
  · exact inside ((step.free mem).elim (aging.free id) (aging.rolledOut written id))
  · change id ∈ s.gcStep.store.hashes.newIds at mem
    rw [beside.newIds] at mem
    exact still (aging.newIds id mem)
  · change s.gcStep.store.currentCycle.get id = _ at get
    rw [beside.currentCycle] at get
    exact inside (aging.currentCycle id value get)
  · intro sent values newIds later split
    obtain ⟨taken, hchannel⟩ := step.channel
    change s.gcStep.channel = _ at split
    rw [split, ← List.append_assoc] at hchannel
    obtain ⟨written, new⟩ := aging.commands _ values newIds later hchannel
    exact ⟨fun id value get => inside (written id value get), fun id mem => still (new id mem)⟩
  · refine (aging.slots_gcStep step).mono fun i id value holds => ?_
    exact holds.imp inside fun h => ⟨h.1, h.2.later .gc⟩

/-- Along a run that writes in time, ids age as they move. -/
theorem aging_acts (disabled : Bool) (schedule : List Nat) {acts : List Act}
    (inTime : WrittenInTime (new disabled schedule) acts) :
    Aging (new disabled schedule) acts ((new disabled schedule).afterActs acts) := by
  induction acts using List.reverseRecOn with
  | nil => exact aging_new disabled schedule
  | append_singleton acts a ih =>
      have aging := ih inTime.init
      cases a with
      | alloc hash =>
          rw [afterActs_snoc]
          exact aging.alloc hash
      | write batch =>
          rw [afterActs_snoc]
          exact aging.write (inTime.handed acts batch [] rfl)
      | put commitHashId =>
          rw [afterActs_snoc]
          exact aging.put commitHashId
      | applied reused =>
          rw [afterActs_snoc]
          exact aging.applied reused
      | newCycle =>
          rw [afterActs_snoc]
          exact aging.newCycle
      | gc =>
          rw [afterActs_snoc]
          exact aging.gc fun id takes handed =>
            inside_of_writesUpTo (inTime.written acts [] id rfl takes handed)

/-- In a run in which every id that is handed out is written before the thread takes the eighth
start of a cycle after that, or a later id is, an id can be handed out at any time, as long
as there is room for one more hash. -/
theorem alloc_never_fails (disabled : Bool) (schedule : List Nat) {acts : List Act}
    (inTime : WrittenInTime (new disabled schedule) acts) :
    let s := (new disabled schedule).afterActs acts
    (∀ id ∈ s.queue, id.index < s.store.hashes.hashes.length ∧
        id.index < s.store.hashes.values.length) ∧
      ∀ hash, s.store.hashes.hashes.length < MAX_HASHES →
        ∃ id, (HashValueStore.getVacantEntryHash hash s.store.hashes).1 = .ok id := by
  intro s
  have aging : Aging (new disabled schedule) acts s := aging_acts disabled schedule inTime
  have inside : ∀ id ∈ s.queue, id.index < s.store.hashes.values.length :=
    fun id mem => aging.free id (List.mem_append_left _ mem)
  refine ⟨fun id mem => ⟨(inside id mem).trans_le aging.bounded.1, inside id mem⟩, ?_⟩
  intro hash room
  have handed := HashValueStore.getVacantEntryHash_handed hash aging.bounded
  rcases Exec.wp_outcome handed with ⟨id, ok, _⟩ | failed
  · exact ⟨id, ok⟩
  · generalize (HashValueStore.getVacantEntryHash hash s.store.hashes).2 = h at failed
    cases failed with
    | @lost id rest queue short =>
        have mem : id ∈ s.queue := by
          rw [System.queue, queue]
          exact List.mem_cons_self
        exact absurd (inside id mem) (Nat.not_lt.mpr short)
    | full _ length => exact absurd room (by omega)

end Aging

section Sample

local instance allocationDigest : Digest := sampleDigest

def secondId : HashId := ⟨2, by decide, by decide⟩

/-- Two entries are hashed and the second one is written in one cycle, which ends, and seven
more. -/
def laterWritten : List Act :=
  [.alloc zeroHash, .alloc zeroHash, .write [(secondId, .blob [1])]] ++
    (List.replicate 8 endCycle).flatten

/-- After the batch, cycles end and the thread runs. -/
theorem laterWritten_split {before after : List Act} {a : Act}
    (split : laterWritten = before ++ a :: after) :
    (before = [] ∨ before = [.alloc zeroHash]) ∧ a = .alloc zeroHash ∨
      before = [.alloc zeroHash, .alloc zeroHash] ∧ a = .write [(secondId, .blob [1])] ∨
      .write [(secondId, .blob [1])] ∈ before ∧ (a = .newCycle ∨ a = .gc) := by
  have whole : laterWritten = .alloc zeroHash :: .alloc zeroHash ::
      .write [(secondId, .blob [1])] :: (List.replicate 8 endCycle).flatten := rfl
  rw [whole] at split
  cases before with
  | nil =>
      rw [List.nil_append, List.cons.injEq] at split
      exact Or.inl ⟨Or.inl rfl, split.1.symm⟩
  | cons first before =>
      rw [List.cons_append, List.cons.injEq] at split
      cases before with
      | nil =>
          rw [List.nil_append, List.cons.injEq] at split
          exact Or.inl ⟨Or.inr (by rw [← split.1]), split.2.1.symm⟩
      | cons second before =>
          rw [List.cons_append, List.cons.injEq] at split
          cases before with
          | nil =>
              rw [List.nil_append, List.cons.injEq] at split
              exact Or.inr (Or.inl ⟨by rw [← split.1, ← split.2.1], split.2.2.1.symm⟩)
          | cons third rest =>
              rw [List.cons_append, List.cons.injEq] at split
              have tail : ∀ a' ∈ (List.replicate 8 endCycle).flatten, a' = .newCycle ∨ a' = .gc := by
                decide
              rw [← split.2.2.1]
              refine Or.inr (Or.inr ⟨by simp, tail a ?_⟩)
              rw [split.2.2.2]
              exact List.mem_append_right _ List.mem_cons_self

/-- Two ids are handed out, and the second one is written at once. -/
theorem writtenInTime_laterWritten : WrittenInTime (new false []) laterWritten := by
  have one : (new false []).HandsOut zeroHash firstId := by
    rw [HandsOut]
    decide +kernel
  have two : ((new false []).afterActs [.alloc zeroHash]).HandsOut zeroHash secondId := by
    rw [HandsOut]
    decide +kernel
  refine ⟨fun before batch after split p mem => ?_, fun before after id split takes handed => ?_⟩
  · rcases laterWritten_split split with ⟨_, alloc⟩ | ⟨rfl, write⟩ | ⟨_, starts | gc⟩
    · cases alloc
    · cases write
      rw [List.mem_singleton.mp mem]
      decide +kernel
    · cases starts
    · cases gc
  · rcases laterWritten_split split with ⟨_, alloc⟩ | ⟨_, write⟩ | ⟨written, _⟩
    · cases alloc
    · cases write
    · refine ⟨_, written, _, List.mem_singleton_self _, ?_⟩
      obtain ⟨first, hash, since, rfl, hands, _⟩ := handed
      rw [List.append_assoc] at split
      rcases laterWritten_split split with ⟨rfl | rfl, alloc⟩ | ⟨_, write⟩ | ⟨_, starts | gc⟩
      · cases alloc
        cases one.symm.trans hands
        decide
      · cases alloc
        cases two.symm.trans hands
        decide
      · cases write
      · cases starts
      · cases gc

/-- The id that was never written comes back as well. -/
theorem alloc_never_fails_rolled :
    let s := (new false []).afterActs laterWritten
    s.queue = [firstId, secondId] ∧
      ∃ id, (HashValueStore.getVacantEntryHash zeroHash s.store.hashes).1 = .ok id := by
  intro s
  exact ⟨by decide +kernel,
    (alloc_never_fails false [] writtenInTime_laterWritten).2 zeroHash (by decide +kernel)⟩

/-- An entry is hashed and nothing is ever written.  Its id comes back after eight cycles, and
the call that gets it panics. -/
theorem unwritten_id_panics :
    let s := (new false []).afterActs ([.alloc zeroHash] ++ (List.replicate 8 endCycle).flatten)
    s.store.hashes.hashes.length = 1 ∧ s.queue = [firstId] ∧
      (HashValueStore.getVacantEntryHash zeroHash s.store.hashes).1 = .panic := by
  decide +kernel

end Sample

end System

end NodeFuzzer
