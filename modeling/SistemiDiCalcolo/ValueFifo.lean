/-
The FIFO of Lab07/01.

The children of two programs hand over `int`s through a FIFO, without any lock:
`writeValue` and `readValue` rely on the transfers of `sizeof(int)` bytes being
atomic.  Each program has a parent that forks the children, waits for them and
closes the FIFO.
-/
import SistemiDiCalcolo.Machine
import SistemiDiCalcolo.ForkWait
import SistemiDiCalcolo.Descriptor

open Function (update)
open AccessLog (Byte intBytes)
open ForkWait (Status Parent parentStep)

namespace ValueFifo

/-- `NUM_PRODUCERS`, `NUM_CONSUMERS`, `OPS_PER_PRODUCER`, `OPS_PER_CONSUMER`, and the bytes
the kernel keeps in the FIFO. -/
structure Params where
  numProducers : ℕ
  numConsumers : ℕ
  opsPerProducer : ℕ
  opsPerConsumer : ℕ
  capacity : ℕ

/-- Program points of `produce`; `writing` is the loop of `writeValue`. -/
inductive ProducerPc
  | notForked
  | loop
  | writing (value : CInt) (bytes_sent : ℕ)
  | exited
  | failed
  deriving DecidableEq, Repr

/-- Program points of `consume`; `reading` is the loop of `readValue`. -/
inductive ConsumerPc
  | notForked
  | loop
  | reading (bytes_read : ℕ)
  | exited
  | failed
  deriving DecidableEq, Repr

structure Producer where
  pc : ProducerPc
  numOps : ℕ
  localSum : CInt

structure Consumer where
  pc : ConsumerPc
  numOps : ℕ
  localSum : CInt
  value : Memory Byte

def Producer.status (t : Producer) : Status :=
  match t.pc with
  | .notForked => .notForked
  | .loop | .writing _ _ => .running
  | .exited => .exited
  | .failed => .failed

def Consumer.status (t : Consumer) : Status :=
  match t.pc with
  | .notForked => .notForked
  | .loop | .reading _ => .running
  | .exited => .exited
  | .failed => .failed

/-- The FIFO, the two parents and their children; beside them the values that have been
written and read, in the order of the calls of `write` and `read` that completed them. -/
structure State (prm : Params) where
  fifo : List Byte
  producerMain : Parent prm.numProducers
  consumerMain : Parent prm.numConsumers
  prod : Fin prm.numProducers → Producer
  cons : Fin prm.numConsumers → Consumer
  written : List CInt
  read : List CInt

/-- Who takes a step: a child, with the result of its call and what `rand()` returns, or
a parent, with the child that `wait` returns. -/
inductive Agent (prm : Params)
  | producer (p : Fin prm.numProducers) (rand : ℕ) (ret : Ret)
  | consumer (c : Fin prm.numConsumers) (ret : Ret)
  | producerMain (child : Option (Fin prm.numProducers))
  | consumerMain (child : Option (Fin prm.numConsumers))

/-- The call of the step, if it is one, is not interrupted. -/
def Agent.isMoved {prm : Params} : Agent prm → Bool
  | .producer _ _ ret | .consumer _ ret => ret.isMoved
  | .producerMain _ | .consumerMain _ => true

section Program

variable {prm : Params}

/-- A write end is open: that of the parent, or the copy of a child. -/
def State.writeOpen (s : State prm) : Prop :=
  s.producerMain.isOpen = true ∨ ∃ p, (s.prod p).status = .running

/-- A read end is open. -/
def State.readOpen (s : State prm) : Prop :=
  s.consumerMain.isOpen = true ∨ ∃ c, (s.cons c).status = .running

instance (s : State prm) : Decidable s.writeOpen := inferInstanceAs (Decidable (_ ∨ _))

instance (s : State prm) : Decidable s.readOpen := inferInstanceAs (Decidable (_ ∨ _))

/-- The next step of `produce`.  A `write` waits until there is room for all its bytes; with
no read end it fails with `EPIPE`. -/
def producer (s : State prm) (p : Fin prm.numProducers) (rand : ℕ) (ret : Ret) :
    Option (State prm) :=
  let t := s.prod p
  match t.pc with
  | .notForked | .exited | .failed => none
  | .loop =>
    some { s with prod := update s.prod p { t with
      pc := if 0 < t.numOps then .writing (performRandomTransaction rand) 0 else .exited } }
  | .writing value bytes_sent =>
    if bytes_sent < 4 then
      if s.readOpen then
        match ret with
        | .eintr => some s
        | .moved n =>
          if n = 4 - bytes_sent ∧ s.fifo.length + n ≤ prm.capacity then
            some { s with
              fifo := s.fifo ++ (intBytes value).drop bytes_sent
              written := s.written ++ [value]
              prod := update s.prod p { t with pc := .writing value (bytes_sent + n) } }
          else none
      else some { s with prod := update s.prod p { t with pc := .failed } }
    else
      some { s with prod := update s.prod p {
        pc := .loop
        numOps := t.numOps - 1
        localSum := t.localSum + value } }

/-- The next step of `consume`.  A `read` takes what there is, up to what it asks for; it
waits on an empty FIFO as long as a write end is open, and returns 0 with none. -/
def consumer (s : State prm) (c : Fin prm.numConsumers) (ret : Ret) : Option (State prm) :=
  let t := s.cons c
  match t.pc with
  | .notForked | .exited | .failed => none
  | .loop =>
    some { s with cons := update s.cons c { t with
      pc := if 0 < t.numOps then .reading 0 else .exited } }
  | .reading bytes_read =>
    if bytes_read < 4 then
      match ret with
      | .eintr => some s
      | .moved 0 =>
        if s.fifo = [] ∧ ¬ s.writeOpen then
          some { s with cons := update s.cons c { t with pc := .failed } }
        else none
      | .moved (n + 1) =>
        if n + 1 = min (4 - bytes_read) s.fifo.length then
          let value := t.value.store bytes_read (s.fifo.take (n + 1))
          some { s with
            fifo := s.fifo.drop (n + 1)
            read := if bytes_read + (n + 1) < 4 then s.read else s.read ++ [intAt value 0]
            cons := update s.cons c { t with
              pc := .reading (bytes_read + (n + 1))
              value := value } }
        else none
    else
      some { s with cons := update s.cons c { t with
        pc := .loop
        numOps := t.numOps - 1
        localSum := t.localSum + intAt t.value 0 } }

/-- The next step of the parent of the producers. -/
def producerMain (s : State prm) (child : Option (Fin prm.numProducers)) :
    Option (State prm) :=
  (parentStep s.producerMain (fun p => (s.prod p).status) child).map fun (parent, new) =>
    { s with
      producerMain := parent
      prod := match new with
        | none => s.prod
        | some p => update s.prod p { s.prod p with pc := .loop } }

/-- The next step of the parent of the consumers. -/
def consumerMain (s : State prm) (child : Option (Fin prm.numConsumers)) :
    Option (State prm) :=
  (parentStep s.consumerMain (fun c => (s.cons c).status) child).map fun (parent, new) =>
    { s with
      consumerMain := parent
      cons := match new with
        | none => s.cons
        | some c => update s.cons c { s.cons c with pc := .loop } }

/-- The next step of an agent. -/
def step (s : State prm) : Agent prm → Option (State prm)
  | .producer p rand ret => producer s p rand ret
  | .consumer c ret => consumer s c ret
  | .producerMain child => producerMain s child
  | .consumerMain child => consumerMain s child

/-- Both programs have opened the FIFO, and no child has been forked. -/
def start (value : Fin prm.numConsumers → Memory Byte) : State prm where
  fifo := []
  producerMain := ForkWait.start
  consumerMain := ForkWait.start
  prod _ := ⟨.notForked, prm.opsPerProducer, 0⟩
  cons c := ⟨.notForked, prm.opsPerConsumer, 0, value c⟩
  written := []
  read := []

/-- The two programs. -/
def program (prm : Params) : Machine (State prm) (Agent prm) where
  init s := ∃ value, s = start value
  step := step

end Program

end ValueFifo
