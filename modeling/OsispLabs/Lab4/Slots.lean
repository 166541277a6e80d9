import OsispLabs.Lab4.Standstill

/-!
# The bytes of the shared queue

Every copy into the ring stays inside its ten slots, even where an interrupted wait has let two
producers copy at the same time: no slot is ever given back, so `tail` advances ten times at most.
The slots are longer than the shared memory that `main` asks for, and a payload may pass its end.
Where the producers exclude each other, the slots hold the messages added, one after the other.
-/
namespace OsispLabs.Lab4
open Lib

/-- The bytes of a slot. -/
abbrev slotSize : ℕ := 256 + 16

/-- What `main` asks `ftruncate` and `mmap` for behind `struct MessageQueue`: one header and ten
payload areas. -/
abbrev requestedSize : ℕ := 16 + 256 * MessageQueue.bufferSize

theorem paddedSize_le (size : UInt8) : paddedSize size ≤ 256 := by
  have hlt := size.toNat_lt
  unfold paddedSize
  split_ifs <;> omega

section Memory

variable {m : Memory} {source dest n : ℕ} {bytes : List UInt8}

theorem memcpy_of_outside {i : ℕ} (h : i < dest ∨ dest + bytes.length ≤ i) :
    memcpy m dest bytes i = m i := by
  unfold memcpy
  split_ifs with hle
  · rw [List.getD_eq_getElem?_getD, List.getElem?_eq_none (by omega), Option.getD_none]
  · rfl

theorem readBytes_memcpy_same (m : Memory) (dest : ℕ) (bytes : List UInt8) :
    readBytes (memcpy m dest bytes) dest bytes.length = bytes := by
  refine List.ext_getElem (by simp [readBytes]) fun i hi hlt => ?_
  simp [readBytes, memcpy, List.getElem?_eq_getElem hlt]

theorem readBytes_memcpy_of_disjoint (h : source + n ≤ dest ∨ dest + bytes.length ≤ source) :
    readBytes (memcpy m dest bytes) source n = readBytes m source n := by
  refine List.map_congr_left fun i hi => memcpy_of_outside ?_
  have hlt := List.mem_range.mp hi
  omega

end Memory

/-- The bytes by which the producer has moved `tail`. -/
def Producer.filled (p : Producer) : ℕ :=
  slotSize * p.moved + match p.pc with
    | .copyingData _ => 16
    | _ => 0

/-- The bytes of its slot that the producer still has to fill. -/
def ProducerPc.unfilled : ProducerPc → ℕ
  | .waitingMutex _ | .counting _ | .copyingHeader _ => slotSize
  | .copyingData _ => 256
  | .unborn | .generating | .waitingEmpty _ | .testing _ | .exited | .wrapping | .postingFull
  | .postingMutex | .printing => 0

/-- Each slot that a producer fills is one that it has taken. -/
theorem ProducerTally.filled_le {p : Producer} (hp : ProducerTally p) (hsound : ProducerSound p) :
    p.filled + p.pc.unfilled ≤ slotSize * p.taken := by
  have hmoved := hp.moved
  have haccount := hsound.account
  unfold ProducerAccount at haccount
  rw [Producer.filled]
  cases hpc : p.pc <;>
    simp only [hpc, ProducerPc.unposted, ProducerPc.unfilled, slotSize] at hmoved haccount ⊢ <;>
    omega

theorem ProducerStep.tail_le {q q' : MessageQueue} {p p' : Producer} {move : ProducerMove}
    (h : ProducerStep q p move q' p') : q'.tail + p.filled ≤ q.tail + p'.filled := by
  unfold Producer.filled slotSize
  cases h with
  | copyHeader msg hpc =>
    simp only [hpc, MessageQueue.addHeader]
    omega
  | copyData msg hpc =>
    simp only [hpc, MessageQueue.addData]
    omega
  | wrap hpc =>
    simp only [hpc, MessageQueue.wrap]
    split_ifs <;> omega
  | generate msg hpc | eintrEmpty msg hpc | eintrMutex msg hpc | waitEmpty msg hpc | exit msg hpc
  | goOn msg hpc | waitMutex msg hpc | count msg hpc | postFull hpc | postMutex hpc | print hpc =>
    simp only [hpc, Process.await, Nat.le_refl]

namespace MessageQueue

/-- The slots hold the messages added, in the order in which they were added. -/
def Stored (q : MessageQueue) : Prop :=
  ∀ k (h : k < q.added.length),
    readBytes q.memory (slotSize * k) 16 = q.added[k].1 ∧
      readBytes q.memory (slotSize * k + 16) q.added[k].2.length = q.added[k].2

/-- `tail` is at the slot after those messages. -/
def AtSlot (q : MessageQueue) : Prop := q.tail = wrap (slotSize * q.added.length)

/-- Where `tail` is, and what has been copied, at each position inside the critical section. -/
def Filling (q : MessageQueue) : ProducerPc → Prop
  | .counting _ | .copyingHeader _ | .postingFull | .postingMutex => q.AtSlot
  | .copyingData msg => q.tail = slotSize * q.added.length + 16 ∧ q.added.length < bufferSize ∧
      readBytes q.memory (slotSize * q.added.length) 16 = msg.header
  | .wrapping => q.tail = slotSize * q.added.length
  | .unborn | .generating | .waitingEmpty _ | .testing _ | .exited | .waitingMutex _
  | .printing => True

variable {q : MessageQueue} {msg : Message}

theorem wrap_slot {k : ℕ} (h : k < bufferSize) : wrap (slotSize * k) = slotSize * k := by
  simp only [bufferSize] at h
  exact if_neg (by simp only [slotSize]; omega)

theorem filling_of_outside {pc : ProducerPc} (h : pc.owns = 0) : q.Filling pc := by
  cases pc <;> trivial

/-- The messages are stored, and whoever takes the mutex finds `tail` behind them. -/
structure Arranged (q : MessageQueue) : Prop where
  stored : q.Stored
  data : ∀ m ∈ q.added, m.2.length ≤ 256
  free : 0 < q.mutex → q.AtSlot

/-- A copy behind the messages leaves them in place. -/
theorem Stored.memcpy {k dest : ℕ} {bytes : List UInt8} (hs : q.Stored) (hk : k < q.added.length)
    (hdata : ∀ m ∈ q.added, m.2.length ≤ 256) (hdest : slotSize * q.added.length ≤ dest) :
    readBytes (memcpy q.memory dest bytes) (slotSize * k) 16 = q.added[k].1 ∧
      readBytes (memcpy q.memory dest bytes) (slotSize * k + 16) q.added[k].2.length =
        q.added[k].2 := by
  have hlen := hdata _ (List.getElem_mem hk)
  simp only [slotSize] at hdest hlen ⊢
  rw [readBytes_memcpy_of_disjoint (.inl (by omega)),
    readBytes_memcpy_of_disjoint (.inl (by omega))]
  exact hs k hk

theorem Stored.addHeader (msg : Message) (hs : q.Stored) (hdata : ∀ m ∈ q.added, m.2.length ≤ 256)
    (hslot : q.AtSlot) (hroom : q.added.length < bufferSize) :
    (q.addHeader msg).Stored ∧ (q.addHeader msg).Filling (.copyingData msg) := by
  have htail : q.tail = slotSize * q.added.length := hslot.trans (wrap_slot hroom)
  refine ⟨fun k hk => hs.memcpy hk hdata htail.ge, ?_, hroom, ?_⟩
  · simp only [MessageQueue.addHeader, htail]
  · have hsame := readBytes_memcpy_same q.memory q.tail msg.header
    rw [msg.header_length] at hsame
    simpa only [MessageQueue.addHeader, ← htail] using hsame

theorem Stored.addData (hs : q.Stored) (hdata : ∀ m ∈ q.added, m.2.length ≤ 256)
    (hfill : q.Filling (.copyingData msg)) :
    (q.addData msg).Stored ∧ (q.addData msg).Filling .wrapping := by
  obtain ⟨htail, hroom, hheader⟩ := hfill
  constructor
  · intro k hk
    simp only [MessageQueue.addData, List.length_append, List.length_singleton] at hk
    rcases Nat.lt_or_ge k q.added.length with hlt | hge
    · simp only [MessageQueue.addData, List.getElem_append_left hlt]
      exact hs.memcpy hlt hdata (by omega)
    · obtain rfl : k = q.added.length := by omega
      simp only [MessageQueue.addData, List.getElem_concat_length]
      rw [readBytes_memcpy_of_disjoint (.inl (by omega)), hheader, ← htail,
        readBytes_memcpy_same]
      exact ⟨rfl, rfl⟩
  · simp only [MessageQueue.addData, Filling, List.length_append, List.length_singleton, htail,
      slotSize]
    omega

end MessageQueue

section Filling

theorem ProducerPc.owns_eq_zero (pc : ProducerPc) (h : pc.owns ≠ 1) : pc.owns = 0 := by
  cases pc <;> first | rfl | exact absurd rfl h

variable {q q' : MessageQueue} {p p' : Producer} {move : ProducerMove}

/-- A producer fills its slot statement by statement. -/
theorem ProducerStep.filling (h : ProducerStep q p move q' p') (hq : q.Arranged)
    (hfill : q.Filling p.pc) (hok : move = .eintr → p.pc.awaitsMutex = false)
    (howner : p.pc.owns = 1 → q.mutex = 0)
    (hroom : ∀ msg, p.pc = .copyingHeader msg → q.added.length < MessageQueue.bufferSize) :
    q'.Arranged ∧ q'.Filling p'.pc := by
  cases h with
  | eintrMutex msg hpc hint => simp [hpc, ProducerPc.awaitsMutex] at hok
  | waitMutex msg hpc hpos =>
    exact ⟨⟨hq.stored, hq.data, fun _ => hq.free hpos⟩, hq.free hpos⟩
  | copyHeader msg hpc =>
    rw [hpc] at hfill howner
    obtain ⟨hstored, hnext⟩ := hq.stored.addHeader msg hq.data hfill (hroom msg hpc)
    have hzero : (q.addHeader msg).mutex = 0 := howner rfl
    exact ⟨⟨hstored, hq.data, fun hpos => by omega⟩, hnext⟩
  | copyData msg hpc =>
    rw [hpc] at hfill howner
    obtain ⟨hstored, hnext⟩ := hq.stored.addData hq.data hfill
    have hzero : (q.addData msg).mutex = 0 := howner rfl
    refine ⟨⟨hstored, fun m hm => ?_, fun hpos => by omega⟩, hnext⟩
    rcases List.mem_append.mp hm with hm | hm
    · exact hq.data m hm
    · rw [List.mem_singleton.mp hm, msg.data_length]
      exact paddedSize_le _
  | wrap hpc =>
    rw [hpc] at hfill howner
    have hzero := howner rfl
    exact ⟨⟨hq.stored, hq.data, fun hpos => by simp only at hpos; omega⟩,
      congrArg MessageQueue.wrap hfill⟩
  | postMutex hpc =>
    rw [hpc] at hfill
    exact ⟨⟨hq.stored, hq.data, fun _ => hfill⟩, trivial⟩
  | count msg hpc | postFull hpc =>
    rw [hpc] at hfill
    exact ⟨⟨hq.stored, hq.data, hq.free⟩, hfill⟩
  | generate msg hpc | eintrEmpty msg hpc | waitEmpty msg hpc | exit msg hpc | goOn msg hpc
  | print hpc => exact ⟨⟨hq.stored, hq.data, hq.free⟩, trivial⟩

/-- A producer outside its critical section does not touch the ring. -/
theorem ProducerStep.filling_other (h : ProducerStep q p move q' p') (hout : p.pc.owns = 0)
    {pc : ProducerPc} (hpc : q.Filling pc) : q'.Filling pc := by
  cases h with
  | count msg hp | copyHeader msg hp | copyData msg hp | wrap hp | postFull hp | postMutex hp =>
    simp [hp, ProducerPc.owns] at hout
  | generate | eintrEmpty | eintrMutex | waitEmpty | exit | goOn | waitMutex | print =>
    exact hpc

theorem ConsumerStep.filling {c c' : Consumer} {cmove : ConsumerMove}
    (h : ConsumerStep q c cmove q' c') (hc : ConsumerLive c) (hq : q.Arranged) :
    q'.Arranged ∧ ∀ pc, q.Filling pc → q'.Filling pc := by
  have hposition := hc.position
  cases h with
  | allocate | eintrFull | waitFull | exit | goOn =>
    exact ⟨⟨hq.stored, hq.data, hq.free⟩, fun _ => id⟩
  | eintrMutex hpc | waitMutex hpc | count hpc | copyHeader hpc | copyData header hpc | wrap hpc
  | postEmpty hpc | postMutex hpc | print hpc => simp [hpc] at hposition

end Filling

variable {P C : Type*} [DecidableEq P] [DecidableEq C] [Fintype P] [Fintype C]

namespace State

variable {s t : State P C} {a : Action P C}

/-- The address and the number of the bytes that the next statement of a process writes into the
ring. -/
def written (s : State P C) : Action P C → Option (ℕ × ℕ)
  | .producer i .statement =>
    match (s.producer i).pc with
    | .copyingHeader msg => some (s.queue.tail, msg.header.length)
    | .copyingData msg => some (s.queue.tail, msg.data.length)
    | _ => none
  | .consumer j .statement =>
    match (s.consumer j).pc with
    | .copyingHeader => some (s.queue.head, 16)
    | .copyingData header => some (s.queue.head, paddedSize (headerSize header))
    | _ => none
  | .producer _ (.generateMessage _) | .producer _ .eintr | .consumer _ .eintr
  | .createProducer _ | .destroyProducer | .createConsumer _ | .destroyConsumer => none

/-- What the producers have filled covers the bytes before `tail`. -/
structure Within (s : State P C) : Prop where
  spent : s.Spent
  tail : s.queue.tail ≤ total Producer.filled s.producer

omit [DecidableEq P] [DecidableEq C] in
theorem start_within : (start : State P C).Within := ⟨start_spent, Nat.zero_le _⟩

theorem next_within (s : State P C) (a : Action P C) (t : State P C) (hs : s.Within)
    (h : s.next a = some t) : t.Within := by
  refine ⟨next_spent s a t hs.spent h, ?_⟩
  refine (next_step h).covered (f := MessageQueue.tail) (w := Producer.filled)
    (fun i m q p _ hwork => hwork.tail_le) (fun j m q p _ hwork => by rw [hwork.added.2])
    (fun _ => rfl) (fun i hpc => ?_) hs.tail
  simp [Producer.filled, hpc, (hs.spent.unborn hpc).2]

omit [DecidableEq P] [DecidableEq C] in
/-- What a producer still has to fill lies before the end of the last slot. -/
theorem Within.tail_add_le (hs : s.Within) (i : P) :
    s.queue.tail + (s.producer i).pc.unfilled ≤ MessageQueue.bufferSize * slotSize := by
  have hfilled : total (fun p => p.filled + p.pc.unfilled) s.producer ≤
      total (fun p => slotSize * p.taken) s.producer :=
    total_le_total fun i => (hs.spent.tally i).filled_le (hs.spent.lawful.sound.producer i)
  rw [total_add, total_mul, slotSize] at hfilled
  have hone := apply_le_total (fun p : Producer => p.pc.unfilled) s.producer i
  have htaken := hs.spent.taken_le.1
  have htail := hs.tail
  simp only [MessageQueue.bufferSize, slotSize] at htaken ⊢
  omega

omit [DecidableEq P] [DecidableEq C] in
/-- Only producers write: a header or a payload, at `tail` and inside what is left of its slot. -/
theorem Within.of_written (hs : s.Within) {dest n : ℕ} (h : s.written a = some (dest, n)) :
    (n = 16 ∧ dest + slotSize ≤ MessageQueue.bufferSize * slotSize) ∨
      ∃ i msg, a = .producer i .statement ∧ (s.producer i).pc = .copyingData msg ∧
        n = msg.data.length ∧ dest + 256 ≤ MessageQueue.bufferSize * slotSize := by
  cases a with
  | producer i move =>
    have hroom := hs.tail_add_le i
    cases move with
    | generateMessage msg | eintr => cases h
    | statement =>
      simp only [written] at h
      split at h
      · rename_i msg hpc
        obtain ⟨rfl, rfl⟩ := Prod.mk.inj (Option.some.inj h)
        rw [hpc] at hroom
        exact .inl ⟨msg.header_length, hroom⟩
      · rename_i msg hpc
        obtain ⟨rfl, rfl⟩ := Prod.mk.inj (Option.some.inj h)
        rw [hpc] at hroom
        exact .inr ⟨i, msg, rfl, hpc, rfl, hroom⟩
      · cases h
  | consumer j move =>
    cases move with
    | eintr => cases h
    | statement =>
      rcases (hs.spent.lawful.sound.consumer j).position with hpc | hpc | hpc | hpc | hpc
      all_goals
        simp only [written, hpc] at h
        cases h
  | createProducer child | createConsumer child => cases h
  | destroyProducer | destroyConsumer => cases h

omit [DecidableEq P] [DecidableEq C] in
theorem Within.written_le (hs : s.Within) {dest n : ℕ} (h : s.written a = some (dest, n)) :
    dest + n ≤ MessageQueue.bufferSize * slotSize := by
  obtain ⟨rfl, hroom⟩ | ⟨i, msg, rfl, hpc, rfl, hroom⟩ := hs.of_written h
  · have hle : 16 ≤ slotSize := by decide
    omega
  · rw [msg.data_length]
    have hle := paddedSize_le (headerSize msg.header)
    omega

omit [Fintype P] [Fintype C] in
/-- A byte that is not written keeps its value. -/
theorem Step.memory (h : Step s a t) (hs : s.Sound) {i : ℕ}
    (hi : ∀ dest n, s.written a = some (dest, n) → i < dest ∨ dest + n ≤ i) :
    t.queue.memory i = s.queue.memory i := by
  cases h with
  | producer k hwork =>
    cases hwork with
    | copyHeader msg hpc => exact memcpy_of_outside (hi _ _ (by rw [written, hpc]))
    | copyData msg hpc => exact memcpy_of_outside (hi _ _ (by rw [written, hpc]))
    | generate | eintrEmpty | eintrMutex | waitEmpty | exit | goOn | waitMutex | count | wrap
    | postFull | postMutex | print => rfl
  | consumer j hwork =>
    have hposition := (hs.consumer j).position
    cases hwork with
    | copyHeader hpc => simp [hpc] at hposition
    | copyData header hpc => simp [hpc] at hposition
    | allocate | eintrFull | eintrMutex | waitFull | exit | goOn | waitMutex | count | wrap
    | postEmpty | postMutex | print => rfl
  | forkProducer k hpc => rfl
  | forkProducerFails => rfl
  | forkConsumer j hpc => rfl
  | forkConsumerFails => rfl
  | killProducer k rest hpids => rfl
  | killConsumer j rest hpids => rfl
  | killAllProducer rest hpids => rfl
  | killAllConsumer rest hpids => rfl
  | noProducer hpids => rfl
  | noConsumer hpids => rfl

/-- Whatever the processes do and whichever signals arrive, every write into the ring lies in its
ten slots, and no byte behind them changes. Only a payload of more than 112 bytes can pass the end
of the shared memory that `main` has asked for. -/
theorem run_inSlots (as : List (Action P C)) (s : State P C) (hrun : exec next start as = some s)
    (a : Action P C) :
    (∀ dest n, s.written a = some (dest, n) → dest + n ≤ MessageQueue.bufferSize * slotSize) ∧
      (∀ t, s.next a = some t → ∀ i, MessageQueue.bufferSize * slotSize ≤ i →
        t.queue.memory i = s.queue.memory i) ∧
      ∀ dest n, s.written a = some (dest, n) → requestedSize < dest + n →
        ∃ i msg, a = .producer i .statement ∧ (s.producer i).pc = .copyingData msg ∧
          112 < msg.data.length := by
  have hs := exec_invariant next_within start_within hrun
  have hwritten : ∀ dest n, s.written a = some (dest, n) →
      dest + n ≤ MessageQueue.bufferSize * slotSize := fun dest n => hs.written_le
  refine ⟨hwritten, fun t h i hi => ?_, fun dest n h hpasses => ?_⟩
  · refine (next_step h).memory hs.spent.lawful.sound fun dest n hrange => .inr ?_
    exact (hwritten dest n hrange).trans hi
  · simp only [requestedSize, MessageQueue.bufferSize] at hpasses
    obtain ⟨rfl, hroom⟩ | ⟨i, msg, rfl, hpc, rfl, hroom⟩ := hs.of_written h
    · simp only [MessageQueue.bufferSize, slotSize] at hroom
      omega
    · simp only [MessageQueue.bufferSize, slotSize] at hroom
      exact ⟨i, msg, rfl, hpc, by omega⟩

/-- Two producers inside at once, both copying their headers. -/
def copyingTogether : List (Action Bool Unit) :=
  .createProducer (some true) :: .createProducer (some false) :: turn true 3 ++ turn false 2 ++
    [.destroyProducer, .producer false .eintr, .producer true .statement,
      .producer true .statement, .producer false .statement]

theorem run_inSlots_together :
    ∃ s : State Bool Unit, exec next start copyingTogether = some s ∧
      s.written (.producer false .statement) = some (16, 16) ∧
      (∀ dest n, s.written (.producer false .statement) = some (dest, n) →
        dest + n ≤ MessageQueue.bufferSize * slotSize) ∧
      ∀ t, s.next (.producer false .statement) = some t →
        ∀ i, MessageQueue.bufferSize * slotSize ≤ i → t.queue.memory i = s.queue.memory i :=
  have hrun : exec next start copyingTogether = some _ := rfl
  have hslots := run_inSlots copyingTogether _ hrun (.producer false .statement)
  ⟨_, hrun, rfl, hslots.1, hslots.2.1⟩

/-- A message with the longest payload. -/
def longMessage : Message where
  header := [83, 0, 83, 0, 0, 0, 0, 0, 0, 0, 0, 0, 0, 0, 0, 0]
  data := List.replicate 256 33
  header_length := rfl
  data_length := List.length_replicate

/-- As the tenth message its payload takes 144 bytes behind the memory asked for. -/
theorem tenthPayload_passes :
    ((exec next (start : State Unit Unit) (.createProducer (some ()) ::
        (List.replicate 9 (turn () 10)).flatten ++
          .producer () (.generateMessage longMessage) ::
            List.replicate 5 (.producer () .statement))).bind fun s =>
      s.written (.producer () .statement)) = some (requestedSize - 112, 256) := by
  decide +kernel

section Stored

/-- At most one producer is filling a slot, and the slots before it are full. -/
structure Filled (s : State P C) : Prop where
  spent : s.Spent
  single : s.queue.mutex + s.inside = 1
  arranged : s.queue.Arranged
  filling : ∀ i, s.queue.Filling (s.producer i).pc

omit [DecidableEq P] [DecidableEq C] in
theorem start_filled : (start : State P C).Filled where
  spent := start_spent
  single := start_inside
  arranged := ⟨nofun, nofun, fun _ => (MessageQueue.wrap_slot (k := 0) (by decide)).symm⟩
  filling _ := trivial

omit [DecidableEq C] in
/-- Who is inside has the mutex, and is alone there. -/
theorem Filled.alone (hs : s.Filled) {i : P} (hi : (s.producer i).pc.owns = 1) :
    s.queue.mutex = 0 ∧ ∀ k, k ≠ i → (s.producer k).pc.owns = 0 := by
  have hsingle := hs.single
  rw [State.inside] at hsingle
  have hone := apply_le_total (fun p : Producer => p.pc.owns) s.producer i
  have hle : total (fun p : Producer => p.pc.owns) s.producer ≤ 1 := by omega
  refine ⟨by omega, fun k hk => Nat.eq_zero_of_not_pos fun hpos => hk ?_⟩
  exact eq_of_total_le_one hle hpos (Nat.lt_of_lt_of_eq Nat.one_pos hi.symm)

omit [DecidableEq P] [DecidableEq C] in
theorem Spent.added_lt (hs : s.Spent) {i : P} {msg : Message}
    (hpc : (s.producer i).pc = .copyingHeader msg) :
    s.queue.added.length < MessageQueue.bufferSize := by
  have hmoved := (hs.tally i).moved
  have haccount := (hs.lawful.sound.producer i).account
  simp only [ProducerAccount, hpc, ProducerPc.unposted] at hmoved haccount
  have hless : total Process.moved s.producer < total Process.taken s.producer :=
    total_lt (fun k => (hs.tally k).moved_le (hs.lawful.sound.producer k)) (i := i) (by omega)
  have hadded := hs.added
  have htaken := hs.taken_le.1
  omega

theorem next_filled (s : State P C) (a : Action P C) (t : State P C) (hs : s.Filled)
    (hok : s.Uninterrupted a) (h : s.next a = some t) : t.Filled := by
  have hspent := next_spent s a t hs.spent h
  have hstep := next_step h
  have hsingle := (hstep.inside hok).trans hs.single
  cases hstep with
  | @producer i move q p hwork =>
    obtain ⟨harranged, hself⟩ := hwork.filling hs.arranged (hs.filling i)
      (fun hm => by subst hm; exact hok) (fun hi => (hs.alone hi).1)
      (fun msg hpc => hs.spent.added_lt hpc)
    refine ⟨hspent, hsingle, harranged, fun k => ?_⟩
    by_cases hk : k = i
    · subst hk
      simpa [setProducer] using hself
    · simp only [setProducer, Function.update_of_ne hk]
      by_cases hin : (s.producer i).pc.owns = 1
      · exact MessageQueue.filling_of_outside ((hs.alone hin).2 k hk)
      · exact hwork.filling_other ((s.producer i).pc.owns_eq_zero hin) (hs.filling k)
  | @consumer j move q p hwork =>
    obtain ⟨harranged, hrest⟩ := hwork.filling (hs.spent.lawful.sound.consumer j) hs.arranged
    exact ⟨hspent, hsingle, harranged, fun i => hrest _ (hs.filling i)⟩
  | forkProducer i hpc =>
    refine ⟨hspent, hsingle, hs.arranged, fun k => ?_⟩
    by_cases hk : k = i
    · subst hk
      simp [setProducer, Process.born, MessageQueue.Filling]
    · simpa [setProducer, hk] using hs.filling k
  | killProducer i rest hpids =>
    refine ⟨hspent, hsingle, hs.arranged, fun k => ?_⟩
    by_cases hk : k = i
    · subst hk
      simpa [setProducer, Process.handlerSIGUSR1] using hs.filling k
    · simpa [setProducer, hk] using hs.filling k
  | forkProducerFails => exact ⟨hspent, hsingle, hs.arranged, hs.filling⟩
  | forkConsumer j hpc => exact ⟨hspent, hsingle, hs.arranged, hs.filling⟩
  | forkConsumerFails => exact ⟨hspent, hsingle, hs.arranged, hs.filling⟩
  | killConsumer j rest hpids => exact ⟨hspent, hsingle, hs.arranged, hs.filling⟩
  | killAllProducer rest hpids => exact ⟨hspent, hsingle, hs.arranged, hs.filling⟩
  | killAllConsumer rest hpids => exact ⟨hspent, hsingle, hs.arranged, hs.filling⟩
  | noProducer hpids => exact ⟨hspent, hsingle, hs.arranged, hs.filling⟩
  | noConsumer hpids => exact ⟨hspent, hsingle, hs.arranged, hs.filling⟩

/-- As long as no `sem_wait` on the mutex is interrupted, the slots hold the messages added so far,
complete and in order, at every point of the run. -/
theorem run_stored (as : List (Action P C)) (s : State P C)
    (hok : StepsMeet next Uninterrupted (start : State P C) as)
    (hrun : exec next start as = some s) : s.queue.Stored :=
  (exec_invariant_of_steps next_filled start_filled hok hrun).arranged.stored

/-- One message stored, and the header of the next. -/
theorem run_stored_partly :
    ∃ s : State Bool Unit, exec next start (.createProducer (some true) ::
        .createProducer (some false) :: turn true 10 ++ turn false 5) = some s ∧
      s.queue.Stored ∧ s.queue.added.length = 1 :=
  have hrun : exec next start (.createProducer (some true) :: .createProducer (some false) ::
      turn true 10 ++ turn false 5) = some _ := rfl
  ⟨_, hrun, run_stored (P := Bool) (C := Unit) _ _ (by decide) hrun, rfl⟩

end Stored

end State

end OsispLabs.Lab4
