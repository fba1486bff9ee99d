/-
The producers and the consumers of `Lab05/src/02`: two programs that share a
ring in a memory object, with named semaphores.

`produce` and `consume` are the loops of a producer and of a consumer process,
one program point for each semaphore operation and for each load or store of
`buf`, `write_index` and `read_index`.  `initSemaphores`, `initMemory` and
`openSemaphores` are what the two `main`s do before the loops start.  As in
`ProducerConsumer.lean`, a state also records the accesses to `buf` and the
cells that hold an unread value.  `ProduceStep` and `ConsumeStep` list what a
step can do.
-/
import SistemiDiCalcolo.Machine
import SistemiDiCalcolo.SemRing
import SistemiDiCalcolo.Transaction

open Function (update)

namespace SharedMemory

/-- The `#define`s, and what each process is to do: a producer goes through the
list of the values it will generate. -/
structure Params where
  numProducers : ℕ
  numConsumers : ℕ
  bufferSize : ℕ
  bufferSize_pos : 0 < bufferSize
  values : Fin numProducers → List CInt
  numOps : Fin numConsumers → ℕ

/-- Program points of `produce`; `store i` and `advance i` carry the value of
`write_index` just loaded. -/
inductive ProducerPc
  | loop
  | waitEmpty
  | waitCs
  | fetch
  | store (i : ℕ)
  | refetch
  | advance (i : ℕ)
  | postCs
  | postFilled
  | next
  | done
  deriving DecidableEq, Repr

/-- A producer process; `numOps` is the length of `ops`. -/
structure Producer where
  pc : ProducerPc
  ops : List CInt
  value : CInt
  localSum : CInt
  deriving DecidableEq, Repr

/-- Program points of `consume`; `load i` and `advance i` carry the value of
`read_index` just loaded. -/
inductive ConsumerPc
  | loop
  | waitFilled
  | waitCs
  | fetch
  | load (i : ℕ)
  | refetch
  | advance (i : ℕ)
  | postCs
  | postEmpty
  | next
  | done
  deriving DecidableEq, Repr

/-- A consumer process. -/
structure Consumer where
  pc : ConsumerPc
  numOps : ℕ
  value : CInt
  localSum : CInt
  deriving DecidableEq, Repr

/-- Whose `sem_cs`: each program opens one of its own. -/
inductive Side
  | producers
  | consumers
  deriving DecidableEq, Repr

structure State (prm : Params) where
  semCs : Side → ℕ
  semFilled : ℕ
  semEmpty : ℕ
  buf : ℕ → CInt
  readIndex : ℕ
  writeIndex : ℕ
  prod : Fin prm.numProducers → Producer
  cons : Fin prm.numConsumers → Consumer
  trace : List (Event (Fin prm.numProducers) (Fin prm.numConsumers) CInt)
  full : ℕ → Bool

inductive Process (prm : Params)
  | producer (p : Fin prm.numProducers)
  | consumer (c : Fin prm.numConsumers)

section Program

variable {prm : Params}

/-- The next step of producer `p`. -/
def produce (s : State prm) (p : Fin prm.numProducers) : Option (State prm) :=
  let t := s.prod p
  match t.pc with
  | .loop =>
    match t.ops with
    | [] => some { s with prod := update s.prod p { t with pc := .done } }
    | v :: _ => some { s with prod := update s.prod p { t with pc := .waitEmpty, value := v } }
  | .waitEmpty =>
    if 0 < s.semEmpty then
      some { s with
        semEmpty := s.semEmpty - 1
        prod := update s.prod p { t with pc := .waitCs } }
    else none
  | .waitCs =>
    if 0 < s.semCs .producers then
      some { s with
        semCs := update s.semCs .producers (s.semCs .producers - 1)
        prod := update s.prod p { t with pc := .fetch } }
    else none
  | .fetch => some { s with prod := update s.prod p { t with pc := .store s.writeIndex } }
  | .store i =>
    some { s with
      buf := update s.buf i t.value
      full := update s.full i true
      prod := update s.prod p { t with pc := .refetch }
      trace := s.trace ++ [.store p t.value] }
  | .refetch => some { s with prod := update s.prod p { t with pc := .advance s.writeIndex } }
  | .advance i =>
    some { s with
      writeIndex := (i + 1) % prm.bufferSize
      prod := update s.prod p { t with pc := .postCs } }
  | .postCs =>
    some { s with
      semCs := update s.semCs .producers (s.semCs .producers + 1)
      prod := update s.prod p { t with pc := .postFilled } }
  | .postFilled =>
    some { s with
      semFilled := s.semFilled + 1
      prod := update s.prod p { t with pc := .next } }
  | .next =>
    -- the sum is local, and is brought up to date outside the section
    some { s with
      prod := update s.prod p
        { t with pc := .loop, ops := t.ops.tail, localSum := t.localSum + t.value } }
  | .done => none

/-- The next step of consumer `c`. -/
def consume (s : State prm) (c : Fin prm.numConsumers) : Option (State prm) :=
  let t := s.cons c
  match t.pc with
  | .loop =>
    if 0 < t.numOps then some { s with cons := update s.cons c { t with pc := .waitFilled } }
    else some { s with cons := update s.cons c { t with pc := .done } }
  | .waitFilled =>
    if 0 < s.semFilled then
      some { s with
        semFilled := s.semFilled - 1
        cons := update s.cons c { t with pc := .waitCs } }
    else none
  | .waitCs =>
    if 0 < s.semCs .consumers then
      some { s with
        semCs := update s.semCs .consumers (s.semCs .consumers - 1)
        cons := update s.cons c { t with pc := .fetch } }
    else none
  | .fetch => some { s with cons := update s.cons c { t with pc := .load s.readIndex } }
  | .load i =>
    some { s with
      full := update s.full i false
      cons := update s.cons c { t with pc := .refetch, value := s.buf i }
      trace := s.trace ++ [.load c (s.buf i)] }
  | .refetch => some { s with cons := update s.cons c { t with pc := .advance s.readIndex } }
  | .advance i =>
    some { s with
      readIndex := (i + 1) % prm.bufferSize
      cons := update s.cons c { t with pc := .postCs } }
  | .postCs =>
    some { s with
      semCs := update s.semCs .consumers (s.semCs .consumers + 1)
      cons := update s.cons c { t with pc := .postEmpty } }
  | .postEmpty =>
    some { s with
      semEmpty := s.semEmpty + 1
      cons := update s.cons c { t with pc := .next } }
  | .next =>
    some { s with
      cons := update s.cons c
        { t with pc := .loop, localSum := t.localSum + t.value, numOps := t.numOps - 1 } }
  | .done => none

/-- `initSemaphores` of the producer program. -/
def initSemaphores (s : State prm) : State prm :=
  { s with
    semFilled := 0
    semEmpty := prm.bufferSize
    semCs := update s.semCs .producers 1 }

/-- `initMemory` of the producer program. -/
def initMemory (s : State prm) : State prm :=
  { s with buf := fun _ => 0, readIndex := prm.bufferSize - 1, writeIndex := 0 }

/-- `openSemaphores` of the consumer program. -/
def openSemaphores (s : State prm) : State prm :=
  { s with semCs := update s.semCs .consumers 1 }

/-- Before the two programs have initialised anything. -/
def zeroState (prm : Params) : State prm where
  semCs _ := 0
  semFilled := 0
  semEmpty := 0
  buf _ := 0
  readIndex := 0
  writeIndex := 0
  prod p := ⟨.loop, prm.values p, 0, 0⟩
  cons c := ⟨.loop, prm.numOps c, 0, 0⟩
  trace := []
  full _ := false

/-- The state in which the two `main`s start the processes. -/
def mainState (prm : Params) : State prm :=
  openSemaphores (initMemory (initSemaphores (zeroState prm)))

def processStep (s : State prm) : Process prm → Option (State prm)
  | .producer p => produce s p
  | .consumer c => consume s c

/-- The two programs of `Lab05/src/02` together. -/
def program (prm : Params) : Machine (State prm) (Process prm) where
  init s := s = mainState prm
  step := processStep

end Program

/-! ### The steps -/

section Steps

variable {prm : Params} {s s' : State prm} {p : Fin prm.numProducers} {c : Fin prm.numConsumers}

/-- A step of producer `p`, with what it has found. -/
inductive ProduceStep (s : State prm) (p : Fin prm.numProducers) : State prm → Prop
  | ended : (s.prod p).pc = .loop → (s.prod p).ops = [] →
      ProduceStep s p { s with prod := update s.prod p { s.prod p with pc := .done } }
  | produce (v : CInt) (rest : List CInt) : (s.prod p).pc = .loop → (s.prod p).ops = v :: rest →
      ProduceStep s p { s with
        prod := update s.prod p { s.prod p with pc := .waitEmpty, value := v } }
  | waitEmpty : (s.prod p).pc = .waitEmpty → 0 < s.semEmpty → ProduceStep s p { s with
      semEmpty := s.semEmpty - 1
      prod := update s.prod p { s.prod p with pc := .waitCs } }
  | waitCs : (s.prod p).pc = .waitCs → 0 < s.semCs .producers → ProduceStep s p { s with
      semCs := update s.semCs .producers (s.semCs .producers - 1)
      prod := update s.prod p { s.prod p with pc := .fetch } }
  | fetch : (s.prod p).pc = .fetch → ProduceStep s p { s with
      prod := update s.prod p { s.prod p with pc := .store s.writeIndex } }
  | store (i : ℕ) : (s.prod p).pc = .store i → ProduceStep s p { s with
      buf := update s.buf i (s.prod p).value
      full := update s.full i true
      prod := update s.prod p { s.prod p with pc := .refetch }
      trace := s.trace ++ [.store p (s.prod p).value] }
  | refetch : (s.prod p).pc = .refetch → ProduceStep s p { s with
      prod := update s.prod p { s.prod p with pc := .advance s.writeIndex } }
  | advance (i : ℕ) : (s.prod p).pc = .advance i → ProduceStep s p { s with
      writeIndex := (i + 1) % prm.bufferSize
      prod := update s.prod p { s.prod p with pc := .postCs } }
  | postCs : (s.prod p).pc = .postCs → ProduceStep s p { s with
      semCs := update s.semCs .producers (s.semCs .producers + 1)
      prod := update s.prod p { s.prod p with pc := .postFilled } }
  | postFilled : (s.prod p).pc = .postFilled → ProduceStep s p { s with
      semFilled := s.semFilled + 1
      prod := update s.prod p { s.prod p with pc := .next } }
  | next : (s.prod p).pc = .next → ProduceStep s p { s with
      prod := update s.prod p { s.prod p with
        pc := .loop
        ops := (s.prod p).ops.tail
        localSum := (s.prod p).localSum + (s.prod p).value } }

/-- A step of consumer `c`, with what it has found. -/
inductive ConsumeStep (s : State prm) (c : Fin prm.numConsumers) : State prm → Prop
  | ended : (s.cons c).pc = .loop → (s.cons c).numOps = 0 →
      ConsumeStep s c { s with cons := update s.cons c { s.cons c with pc := .done } }
  | round : (s.cons c).pc = .loop → 0 < (s.cons c).numOps →
      ConsumeStep s c { s with cons := update s.cons c { s.cons c with pc := .waitFilled } }
  | waitFilled : (s.cons c).pc = .waitFilled → 0 < s.semFilled → ConsumeStep s c { s with
      semFilled := s.semFilled - 1
      cons := update s.cons c { s.cons c with pc := .waitCs } }
  | waitCs : (s.cons c).pc = .waitCs → 0 < s.semCs .consumers → ConsumeStep s c { s with
      semCs := update s.semCs .consumers (s.semCs .consumers - 1)
      cons := update s.cons c { s.cons c with pc := .fetch } }
  | fetch : (s.cons c).pc = .fetch → ConsumeStep s c { s with
      cons := update s.cons c { s.cons c with pc := .load s.readIndex } }
  | load (i : ℕ) : (s.cons c).pc = .load i → ConsumeStep s c { s with
      full := update s.full i false
      cons := update s.cons c { s.cons c with pc := .refetch, value := s.buf i }
      trace := s.trace ++ [.load c (s.buf i)] }
  | refetch : (s.cons c).pc = .refetch → ConsumeStep s c { s with
      cons := update s.cons c { s.cons c with pc := .advance s.readIndex } }
  | advance (i : ℕ) : (s.cons c).pc = .advance i → ConsumeStep s c { s with
      readIndex := (i + 1) % prm.bufferSize
      cons := update s.cons c { s.cons c with pc := .postCs } }
  | postCs : (s.cons c).pc = .postCs → ConsumeStep s c { s with
      semCs := update s.semCs .consumers (s.semCs .consumers + 1)
      cons := update s.cons c { s.cons c with pc := .postEmpty } }
  | postEmpty : (s.cons c).pc = .postEmpty → ConsumeStep s c { s with
      semEmpty := s.semEmpty + 1
      cons := update s.cons c { s.cons c with pc := .next } }
  | next : (s.cons c).pc = .next → ConsumeStep s c { s with
      cons := update s.cons c { s.cons c with
        pc := .loop
        localSum := (s.cons c).localSum + (s.cons c).value
        numOps := (s.cons c).numOps - 1 } }

theorem produce_step (h : produce s p = some s') : ProduceStep s p s' := by
  unfold produce at h
  cases hpc : (s.prod p).pc with
  | loop =>
    simp only [hpc] at h
    split at h
    · next hops =>
      cases h
      exact .ended hpc hops
    · next v rest hops =>
      cases h
      exact .produce v rest hpc hops
  | waitEmpty =>
    simp only [hpc] at h
    split_ifs at h with hpos
    cases h
    exact .waitEmpty hpc hpos
  | waitCs =>
    simp only [hpc] at h
    split_ifs at h with hpos
    cases h
    exact .waitCs hpc hpos
  | fetch =>
    simp only [hpc] at h
    cases h
    exact .fetch hpc
  | store i =>
    simp only [hpc] at h
    cases h
    exact .store i hpc
  | refetch =>
    simp only [hpc] at h
    cases h
    exact .refetch hpc
  | advance i =>
    simp only [hpc] at h
    cases h
    exact .advance i hpc
  | postCs =>
    simp only [hpc] at h
    cases h
    exact .postCs hpc
  | postFilled =>
    simp only [hpc] at h
    cases h
    exact .postFilled hpc
  | next =>
    simp only [hpc] at h
    cases h
    exact .next hpc
  | done =>
    simp only [hpc] at h
    cases h

theorem consume_step (h : consume s c = some s') : ConsumeStep s c s' := by
  unfold consume at h
  cases hpc : (s.cons c).pc with
  | loop =>
    simp only [hpc] at h
    split_ifs at h with hops
    · cases h
      exact .round hpc hops
    · cases h
      exact .ended hpc (Nat.eq_zero_of_not_pos hops)
  | waitFilled =>
    simp only [hpc] at h
    split_ifs at h with hpos
    cases h
    exact .waitFilled hpc hpos
  | waitCs =>
    simp only [hpc] at h
    split_ifs at h with hpos
    cases h
    exact .waitCs hpc hpos
  | fetch =>
    simp only [hpc] at h
    cases h
    exact .fetch hpc
  | load i =>
    simp only [hpc] at h
    cases h
    exact .load i hpc
  | refetch =>
    simp only [hpc] at h
    cases h
    exact .refetch hpc
  | advance i =>
    simp only [hpc] at h
    cases h
    exact .advance i hpc
  | postCs =>
    simp only [hpc] at h
    cases h
    exact .postCs hpc
  | postEmpty =>
    simp only [hpc] at h
    cases h
    exact .postEmpty hpc
  | next =>
    simp only [hpc] at h
    cases h
    exact .next hpc
  | done =>
    simp only [hpc] at h
    cases h

end Steps

end SharedMemory
