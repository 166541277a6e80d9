import OsispLabs.Lab4.Queue
import OsispLabs.Lib.Execution
import OsispLabs.Lib.Counting

/-!
# The processes of `lab4Main.c`

Any number of producer and consumer processes on one shared queue, and main with its commands.
A process stops before every statement that touches the queue or the flag, so the others and a
`SIGUSR1` can come in between; only a copy and the update of its cursor are one step. A `sem_wait`
during which the handler ran may return without the semaphore. The lists of process ids are not
bounded here; what `p+` at a full table does is the matter of `Lab4.Tables`.
-/
namespace OsispLabs.Lab4
open Lib

/-- Where a producer stands in `workProducer`, with the message it carries. -/
inductive ProducerPc where
  | unborn
  | generating
  | waitingEmpty (msg : Message)
  | testing (msg : Message)
  | exited
  | waitingMutex (msg : Message)
  | counting (msg : Message)
  | copyingHeader (msg : Message)
  | copyingData (msg : Message)
  | wrapping
  | postingFull
  | postingMutex
  | printing
  deriving DecidableEq

/-- Where a consumer stands in `workConsumer`. Its `exit(0)` and the statements after it, from
the `sem_wait` on the mutex on, are one block: the body of the flag test. -/
inductive ConsumerPc where
  | unborn
  | allocating
  | waitingFull
  | testing
  | exited
  | waitingMutex
  | counting
  | copyingHeader
  | copyingData (header : List UInt8)
  | wrapping
  | postingEmpty
  | postingMutex
  | printing
  deriving DecidableEq

/-- A child process: its position, `sigTERMsignalFlag`, whether the handler has run since its
last `sem_wait` began, and how often it took a token, moved a message and posted a token. -/
structure Process (Pc : Type) where
  pc : Pc
  sigTERMsignalFlag : Bool
  interrupted : Bool
  taken : ℕ
  moved : ℕ
  posted : ℕ
  deriving DecidableEq

variable {Pc : Type}

namespace Process

/-- A process as it stands after `fork`. -/
def born (pc : Pc) : Process Pc := ⟨pc, false, false, 0, 0, 0⟩

def handlerSIGUSR1 (p : Process Pc) : Process Pc :=
  { p with sigTERMsignalFlag := true, interrupted := true }

/-- The process at the call of a `sem_wait`. -/
def await (p : Process Pc) (pc : Pc) : Process Pc := { p with pc := pc, interrupted := false }

end Process

abbrev Producer := Process ProducerPc
abbrev Consumer := Process ConsumerPc

/-- What a producer does next: `generateMessage` with its result, its next statement, or the
return of a `sem_wait` with `EINTR`. -/
inductive ProducerMove where
  | generateMessage (msg : Message)
  | statement
  | eintr
  deriving DecidableEq

inductive ConsumerMove where
  | statement
  | eintr
  deriving DecidableEq

open MessageQueue

/-- The loop body of `workProducer`. -/
def workProducer (q : MessageQueue) (p : Producer) :
    ProducerMove → Option (MessageQueue × Producer)
  | .generateMessage msg =>
    if p.pc = .generating then some (q, p.await (.waitingEmpty msg)) else none
  | .eintr =>
    if p.interrupted then
      match p.pc with
      | .waitingEmpty msg => some (q, { p with pc := .testing msg })
      | .waitingMutex msg => some (q, { p with pc := .counting msg })
      | _ => none
    else none
  | .statement =>
    match p.pc with
    | .unborn | .generating | .exited => none
    | .waitingEmpty msg =>
      if q.empty = 0 then none
      else some ({ q with empty := q.empty - 1 },
        { p with pc := .testing msg, taken := p.taken + 1 })
    | .testing msg =>
      if p.sigTERMsignalFlag then some (q, { p with pc := .exited })
      else some (q, p.await (.waitingMutex msg))
    | .waitingMutex msg =>
      if q.mutex = 0 then none
      else some ({ q with mutex := q.mutex - 1 }, { p with pc := .counting msg })
    | .counting msg =>
      some ({ q with countAdd := q.countAdd + 1 }, { p with pc := .copyingHeader msg })
    | .copyingHeader msg => some (q.addHeader msg, { p with pc := .copyingData msg })
    | .copyingData msg =>
      some (q.addData msg, { p with pc := .wrapping, moved := p.moved + 1 })
    | .wrapping => some ({ q with tail := wrap q.tail }, { p with pc := .postingFull })
    | .postingFull =>
      some ({ q with full := q.full + 1 },
        { p with pc := .postingMutex, posted := p.posted + 1 })
    | .postingMutex => some ({ q with mutex := q.mutex + 1 }, { p with pc := .printing })
    | .printing => some (q, { p with pc := .generating })

/-- The loop body of `workConsumer`: the flag test decides between `exit(0)` and the next turn
of the loop, since its closing brace is at the end of the body. -/
def workConsumer (q : MessageQueue) (p : Consumer) :
    ConsumerMove → Option (MessageQueue × Consumer)
  | .eintr =>
    if p.interrupted then
      match p.pc with
      | .waitingFull => some (q, { p with pc := .testing })
      | .waitingMutex => some (q, { p with pc := .counting })
      | _ => none
    else none
  | .statement =>
    match p.pc with
    | .unborn | .exited => none
    | .allocating => some (q, p.await .waitingFull)
    | .waitingFull =>
      if q.full = 0 then none
      else some ({ q with full := q.full - 1 }, { p with pc := .testing, taken := p.taken + 1 })
    | .testing =>
      if p.sigTERMsignalFlag then some (q, { p with pc := .exited })
      else some (q, { p with pc := .allocating })
    | .waitingMutex =>
      if q.mutex = 0 then none
      else some ({ q with mutex := q.mutex - 1 }, { p with pc := .counting })
    | .counting =>
      some ({ q with countGet := q.countGet + 1 }, { p with pc := .copyingHeader })
    | .copyingHeader => some (q.getHeader.2, { p with pc := .copyingData q.getHeader.1 })
    | .copyingData header =>
      some (q.getData header, { p with pc := .wrapping, moved := p.moved + 1 })
    | .wrapping => some ({ q with head := wrap q.head }, { p with pc := .postingEmpty })
    | .postingEmpty =>
      some ({ q with empty := q.empty + 1 },
        { p with pc := .postingMutex, posted := p.posted + 1 })
    | .postingMutex => some ({ q with mutex := q.mutex + 1 }, { p with pc := .printing })
    | .printing => some (q, { p with pc := .allocating })

/-- What each statement of `workProducer` does and when it is enabled. -/
inductive ProducerStep (q : MessageQueue) (p : Producer) :
    ProducerMove → MessageQueue → Producer → Prop
  | generate (msg : Message) (hpc : p.pc = .generating) :
    ProducerStep q p (.generateMessage msg) q (p.await (.waitingEmpty msg))
  | eintrEmpty (msg : Message) (hpc : p.pc = .waitingEmpty msg) (hint : p.interrupted = true) :
    ProducerStep q p .eintr q { p with pc := .testing msg }
  | eintrMutex (msg : Message) (hpc : p.pc = .waitingMutex msg) (hint : p.interrupted = true) :
    ProducerStep q p .eintr q { p with pc := .counting msg }
  | waitEmpty (msg : Message) (hpc : p.pc = .waitingEmpty msg) (hpos : 0 < q.empty) :
    ProducerStep q p .statement { q with empty := q.empty - 1 }
      { p with pc := .testing msg, taken := p.taken + 1 }
  | exit (msg : Message) (hpc : p.pc = .testing msg) (hflag : p.sigTERMsignalFlag = true) :
    ProducerStep q p .statement q { p with pc := .exited }
  | goOn (msg : Message) (hpc : p.pc = .testing msg) (hflag : p.sigTERMsignalFlag = false) :
    ProducerStep q p .statement q (p.await (.waitingMutex msg))
  | waitMutex (msg : Message) (hpc : p.pc = .waitingMutex msg) (hpos : 0 < q.mutex) :
    ProducerStep q p .statement { q with mutex := q.mutex - 1 } { p with pc := .counting msg }
  | count (msg : Message) (hpc : p.pc = .counting msg) :
    ProducerStep q p .statement { q with countAdd := q.countAdd + 1 }
      { p with pc := .copyingHeader msg }
  | copyHeader (msg : Message) (hpc : p.pc = .copyingHeader msg) :
    ProducerStep q p .statement (q.addHeader msg) { p with pc := .copyingData msg }
  | copyData (msg : Message) (hpc : p.pc = .copyingData msg) :
    ProducerStep q p .statement (q.addData msg) { p with pc := .wrapping, moved := p.moved + 1 }
  | wrap (hpc : p.pc = .wrapping) :
    ProducerStep q p .statement { q with tail := wrap q.tail } { p with pc := .postingFull }
  | postFull (hpc : p.pc = .postingFull) :
    ProducerStep q p .statement { q with full := q.full + 1 }
      { p with pc := .postingMutex, posted := p.posted + 1 }
  | postMutex (hpc : p.pc = .postingMutex) :
    ProducerStep q p .statement { q with mutex := q.mutex + 1 } { p with pc := .printing }
  | print (hpc : p.pc = .printing) :
    ProducerStep q p .statement q { p with pc := .generating }

theorem workProducer_step {q q' : MessageQueue} {p p' : Producer} {move : ProducerMove}
    (h : workProducer q p move = some (q', p')) : ProducerStep q p move q' p' := by
  cases move with
  | generateMessage msg =>
    simp only [workProducer] at h
    split at h
    · cases h
      exact .generate msg ‹_›
    · cases h
  | eintr =>
    simp only [workProducer] at h
    split at h
    · split at h
      · cases h
        exact .eintrEmpty _ ‹_› ‹_›
      · cases h
        exact .eintrMutex _ ‹_› ‹_›
      · cases h
    · cases h
  | statement =>
    simp only [workProducer] at h
    split at h
    case h_4 msg hpc =>
      split at h
      · cases h
      · cases h
        exact .waitEmpty msg hpc (Nat.pos_of_ne_zero ‹_›)
    case h_5 msg hpc =>
      split at h
      · cases h
        exact .exit msg hpc ‹_›
      · cases h
        exact .goOn msg hpc (by simpa using ‹¬ p.sigTERMsignalFlag = true›)
    case h_6 msg hpc =>
      split at h
      · cases h
      · cases h
        exact .waitMutex msg hpc (Nat.pos_of_ne_zero ‹_›)
    all_goals cases h
    · exact .count _ ‹_›
    · exact .copyHeader _ ‹_›
    · exact .copyData _ ‹_›
    · exact .wrap ‹_›
    · exact .postFull ‹_›
    · exact .postMutex ‹_›
    · exact .print ‹_›

/-- What each statement of `workConsumer` does and when it is enabled. -/
inductive ConsumerStep (q : MessageQueue) (p : Consumer) :
    ConsumerMove → MessageQueue → Consumer → Prop
  | allocate (hpc : p.pc = .allocating) :
    ConsumerStep q p .statement q (p.await .waitingFull)
  | eintrFull (hpc : p.pc = .waitingFull) (hint : p.interrupted = true) :
    ConsumerStep q p .eintr q { p with pc := .testing }
  | eintrMutex (hpc : p.pc = .waitingMutex) (hint : p.interrupted = true) :
    ConsumerStep q p .eintr q { p with pc := .counting }
  | waitFull (hpc : p.pc = .waitingFull) (hpos : 0 < q.full) :
    ConsumerStep q p .statement { q with full := q.full - 1 }
      { p with pc := .testing, taken := p.taken + 1 }
  | exit (hpc : p.pc = .testing) (hflag : p.sigTERMsignalFlag = true) :
    ConsumerStep q p .statement q { p with pc := .exited }
  | goOn (hpc : p.pc = .testing) (hflag : p.sigTERMsignalFlag = false) :
    ConsumerStep q p .statement q { p with pc := .allocating }
  | waitMutex (hpc : p.pc = .waitingMutex) (hpos : 0 < q.mutex) :
    ConsumerStep q p .statement { q with mutex := q.mutex - 1 } { p with pc := .counting }
  | count (hpc : p.pc = .counting) :
    ConsumerStep q p .statement { q with countGet := q.countGet + 1 }
      { p with pc := .copyingHeader }
  | copyHeader (hpc : p.pc = .copyingHeader) :
    ConsumerStep q p .statement q.getHeader.2 { p with pc := .copyingData q.getHeader.1 }
  | copyData (header : List UInt8) (hpc : p.pc = .copyingData header) :
    ConsumerStep q p .statement (q.getData header)
      { p with pc := .wrapping, moved := p.moved + 1 }
  | wrap (hpc : p.pc = .wrapping) :
    ConsumerStep q p .statement { q with head := wrap q.head } { p with pc := .postingEmpty }
  | postEmpty (hpc : p.pc = .postingEmpty) :
    ConsumerStep q p .statement { q with empty := q.empty + 1 }
      { p with pc := .postingMutex, posted := p.posted + 1 }
  | postMutex (hpc : p.pc = .postingMutex) :
    ConsumerStep q p .statement { q with mutex := q.mutex + 1 } { p with pc := .printing }
  | print (hpc : p.pc = .printing) :
    ConsumerStep q p .statement q { p with pc := .allocating }

theorem workConsumer_step {q q' : MessageQueue} {p p' : Consumer} {move : ConsumerMove}
    (h : workConsumer q p move = some (q', p')) : ConsumerStep q p move q' p' := by
  cases move with
  | eintr =>
    simp only [workConsumer] at h
    split at h
    · split at h
      · cases h
        exact .eintrFull ‹_› ‹_›
      · cases h
        exact .eintrMutex ‹_› ‹_›
      · cases h
    · cases h
  | statement =>
    simp only [workConsumer] at h
    split at h
    case h_4 hpc =>
      split at h
      · cases h
      · cases h
        exact .waitFull hpc (Nat.pos_of_ne_zero ‹_›)
    case h_5 hpc =>
      split at h
      · cases h
        exact .exit hpc ‹_›
      · cases h
        exact .goOn hpc (by simpa using ‹¬ p.sigTERMsignalFlag = true›)
    case h_6 hpc =>
      split at h
      · cases h
      · cases h
        exact .waitMutex hpc (Nat.pos_of_ne_zero ‹_›)
    all_goals cases h
    · exact .allocate ‹_›
    · exact .count ‹_›
    · exact .copyHeader ‹_›
    · exact .copyData _ ‹_›
    · exact .wrap ‹_›
    · exact .postEmpty ‹_›
    · exact .postMutex ‹_›
    · exact .print ‹_›

/-- The shared queue, the child processes, and main's stacks of process ids, the latest first;
a failed `fork` leaves the entry `-1`, here `none`. -/
structure State (P C : Type*) where
  queue : MessageQueue
  producer : P → Producer
  consumer : C → Consumer
  prodPidMas : List (Option P)
  consPidMas : List (Option C)

/-- One step of a child process, or one command of main with the outcome of its `fork`. -/
inductive Action (P C : Type*) where
  | producer (i : P) (move : ProducerMove)
  | consumer (j : C) (move : ConsumerMove)
  | createProducer (child : Option P)
  | destroyProducer
  | createConsumer (child : Option C)
  | destroyConsumer
  deriving DecidableEq

variable {P C : Type*} [DecidableEq P] [DecidableEq C]

/-- Producer `i` makes a message and executes the first statements of its loop. -/
def turn (i : P) (statements : ℕ) : List (Action P C) :=
  .producer i (.generateMessage shortMessage) :: List.replicate statements (.producer i .statement)

namespace State

def start : State P C :=
  ⟨init_queue, fun _ => .born .unborn, fun _ => .born .unborn, [], []⟩

def setProducer (s : State P C) (i : P) (p : Producer) : State P C :=
  { s with producer := Function.update s.producer i p }

def setConsumer (s : State P C) (j : C) (p : Consumer) : State P C :=
  { s with consumer := Function.update s.consumer j p }

/-- `kill(-1, SIGUSR1)`, which reaches every process. -/
def killAll (s : State P C) : State P C :=
  { s with
    producer := fun i => (s.producer i).handlerSIGUSR1
    consumer := fun j => (s.consumer j).handlerSIGUSR1 }

def next (s : State P C) : Action P C → Option (State P C)
  | .producer i move =>
    (workProducer s.queue (s.producer i) move).map fun r =>
      { s.setProducer i r.2 with queue := r.1 }
  | .consumer j move =>
    (workConsumer s.queue (s.consumer j) move).map fun r =>
      { s.setConsumer j r.2 with queue := r.1 }
  | .createProducer none => some { s with prodPidMas := none :: s.prodPidMas }
  | .createProducer (some i) =>
    if (s.producer i).pc = .unborn then
      some { s.setProducer i (.born .generating) with prodPidMas := some i :: s.prodPidMas }
    else none
  | .createConsumer none => some { s with consPidMas := none :: s.consPidMas }
  | .createConsumer (some j) =>
    if (s.consumer j).pc = .unborn then
      some { s.setConsumer j (.born .allocating) with consPidMas := some j :: s.consPidMas }
    else none
  | .destroyProducer =>
    match s.prodPidMas with
    | [] => some s
    | none :: rest => some { s.killAll with prodPidMas := rest }
    | some i :: rest =>
      some { s.setProducer i (s.producer i).handlerSIGUSR1 with prodPidMas := rest }
  | .destroyConsumer =>
    match s.consPidMas with
    | [] => some s
    | none :: rest => some { s.killAll with consPidMas := rest }
    | some j :: rest =>
      some { s.setConsumer j (s.consumer j).handlerSIGUSR1 with consPidMas := rest }

/-- What each step does; `destroyChildProcess` has one constructor for each kind of entry. -/
inductive Step (s : State P C) : Action P C → State P C → Prop
  | producer (i : P) {move : ProducerMove} {q : MessageQueue} {p : Producer}
      (h : ProducerStep s.queue (s.producer i) move q p) :
    Step s (.producer i move) { s.setProducer i p with queue := q }
  | consumer (j : C) {move : ConsumerMove} {q : MessageQueue} {p : Consumer}
      (h : ConsumerStep s.queue (s.consumer j) move q p) :
    Step s (.consumer j move) { s.setConsumer j p with queue := q }
  | forkProducer (i : P) (hpc : (s.producer i).pc = .unborn) :
    Step s (.createProducer (some i))
      { s.setProducer i (.born .generating) with prodPidMas := some i :: s.prodPidMas }
  | forkProducerFails :
    Step s (.createProducer none) { s with prodPidMas := none :: s.prodPidMas }
  | forkConsumer (j : C) (hpc : (s.consumer j).pc = .unborn) :
    Step s (.createConsumer (some j))
      { s.setConsumer j (.born .allocating) with consPidMas := some j :: s.consPidMas }
  | forkConsumerFails :
    Step s (.createConsumer none) { s with consPidMas := none :: s.consPidMas }
  | killProducer (i : P) (rest : List (Option P)) (hpids : s.prodPidMas = some i :: rest) :
    Step s .destroyProducer
      { s.setProducer i (s.producer i).handlerSIGUSR1 with prodPidMas := rest }
  | killConsumer (j : C) (rest : List (Option C)) (hpids : s.consPidMas = some j :: rest) :
    Step s .destroyConsumer
      { s.setConsumer j (s.consumer j).handlerSIGUSR1 with consPidMas := rest }
  | killAllProducer (rest : List (Option P)) (hpids : s.prodPidMas = none :: rest) :
    Step s .destroyProducer { s.killAll with prodPidMas := rest }
  | killAllConsumer (rest : List (Option C)) (hpids : s.consPidMas = none :: rest) :
    Step s .destroyConsumer { s.killAll with consPidMas := rest }
  | noProducer (hpids : s.prodPidMas = []) : Step s .destroyProducer s
  | noConsumer (hpids : s.consPidMas = []) : Step s .destroyConsumer s

/-- Every computed step is one of these. -/
theorem next_step {s t : State P C} {a : Action P C} (h : s.next a = some t) : Step s a t := by
  cases a with
  | producer i move =>
    obtain ⟨⟨q, p⟩, hwork, rfl⟩ := Option.map_eq_some_iff.mp h
    exact .producer i (workProducer_step hwork)
  | consumer j move =>
    obtain ⟨⟨q, p⟩, hwork, rfl⟩ := Option.map_eq_some_iff.mp h
    exact .consumer j (workConsumer_step hwork)
  | createProducer child =>
    cases child with
    | none =>
      obtain rfl := Option.some.inj h
      exact .forkProducerFails
    | some i =>
      simp only [next] at h
      split at h
      · obtain rfl := Option.some.inj h
        exact .forkProducer i ‹_›
      · cases h
  | createConsumer child =>
    cases child with
    | none =>
      obtain rfl := Option.some.inj h
      exact .forkConsumerFails
    | some j =>
      simp only [next] at h
      split at h
      · obtain rfl := Option.some.inj h
        exact .forkConsumer j ‹_›
      · cases h
  | destroyProducer =>
    simp only [next] at h
    split at h
    all_goals obtain rfl := Option.some.inj h
    · exact .noProducer ‹_›
    · exact .killAllProducer _ ‹_›
    · exact .killProducer _ _ ‹_›
  | destroyConsumer =>
    simp only [next] at h
    split at h
    all_goals obtain rfl := Option.some.inj h
    · exact .noConsumer ‹_›
    · exact .killAllConsumer _ ‹_›
    · exact .killConsumer _ _ ‹_›

end State

end OsispLabs.Lab4
