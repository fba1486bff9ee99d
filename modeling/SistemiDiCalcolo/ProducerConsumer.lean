/-
The threads of `producer_consumer_n_m.c`, `producer_consumer_1_m.c` and
`producer_consumer_n_1.c`.

`performTransactions` and `processTransactions` are the loops of a producer and
of a consumer thread, one program point for each semaphore operation and for
each load or store of `transactions[]`, `write_index`, `read_index` and
`deposit`.  The three programs differ in the mutex each side takes around its
section: `write_s` and `read_s` in the first (`producerConsumerNM`), the one
mutex `s` on both sides in the other two (`producerConsumer1M`,
`producerConsumerN1`).  The numbers of threads, the buffer size, the operations
of every thread and the values they produce are parameters.

Next to the variables of the program a state records what happened so far: the
trace of the accesses to `transactions[]`, the cells that hold a value not yet
consumed, the values added to `deposit`, and the balances reported.
`ProducerStep` and `ConsumerStep` list what a step can do.
-/
import SistemiDiCalcolo.Machine
import SistemiDiCalcolo.SemRing
import SistemiDiCalcolo.Transaction

open Function (update)

namespace ProducerConsumer

/-- The `#define`s of a program and what its threads are to do.  `values p` are
the values that `performRandomTransaction` returns in producer `p`, one for
each of the `numOps` operations of that thread. -/
structure Params where
  numProducers : ℕ
  numConsumers : ℕ
  bufferSize : ℕ
  bufferSize_pos : 0 < bufferSize
  initialDeposit : CInt
  values : Fin numProducers → List CInt
  numOps : Fin numConsumers → ℕ

/-- Program points of `performTransactions`; `store i` and `advance i` carry the
value of `write_index` just loaded. -/
inductive ProducerPc
  | loop
  | waitE
  | waitMutex
  | fetch
  | store (i : ℕ)
  | refetch
  | advance (i : ℕ)
  | postMutex
  | postN
  | next
  | done
  deriving DecidableEq, Repr

/-- A producer thread.  `ops` has one entry for each operation that is left, so
that `args->numOps` is its length. -/
structure Producer where
  pc : ProducerPc
  ops : List CInt
  currentTransaction : CInt
  deriving DecidableEq, Repr

/-- Program points of `processTransactions`; `load i` and `advance i` carry the
value of `read_index` just loaded, `loadDeposit v` and `storeDeposit v d` the
transaction and the deposit just loaded. -/
inductive ConsumerPc
  | loop
  | waitN
  | waitMutex
  | fetch
  | load (i : ℕ)
  | loadDeposit (v : CInt)
  | storeDeposit (v d : CInt)
  | refetch
  | advance (i : ℕ)
  | test
  | report
  | postMutex
  | postE
  | next
  | done
  deriving DecidableEq, Repr

/-- A consumer thread. -/
structure Consumer where
  pc : ConsumerPc
  numOps : ℕ
  deriving DecidableEq, Repr

/-- The shared variables, the threads, and the record of what happened: a
balance is reported with the number of transactions consumed until then. -/
structure State (prm : Params) (μ : Type) where
  mutex : μ → ℕ
  n : ℕ
  e : ℕ
  transactions : ℕ → CInt
  deposit : CInt
  readIndex : ℕ
  writeIndex : ℕ
  prod : Fin prm.numProducers → Producer
  cons : Fin prm.numConsumers → Consumer
  trace : List (Event (Fin prm.numProducers) (Fin prm.numConsumers) CInt)
  full : ℕ → Bool
  added : List CInt
  reports : List (ℕ × CInt)

inductive Thread (prm : Params)
  | producer (p : Fin prm.numProducers)
  | consumer (c : Fin prm.numConsumers)

section Program

variable {prm : Params} {μ : Type} [DecidableEq μ]

/-- The next step of producer `p`, whose section is guarded by `wr`. -/
def performTransactions (wr : μ) (s : State prm μ) (p : Fin prm.numProducers) :
    Option (State prm μ) :=
  let t := s.prod p
  match t.pc with
  | .loop =>
    match t.ops with
    | [] => some { s with prod := update s.prod p { t with pc := .done } }
    | v :: _ =>
      -- the item is produced before the wait on `e`
      some { s with prod := update s.prod p { t with pc := .waitE, currentTransaction := v } }
  | .waitE =>
    if 0 < s.e then
      some { s with e := s.e - 1, prod := update s.prod p { t with pc := .waitMutex } }
    else none
  | .waitMutex =>
    if 0 < s.mutex wr then
      some { s with
        mutex := update s.mutex wr (s.mutex wr - 1)
        prod := update s.prod p { t with pc := .fetch } }
    else none
  | .fetch => some { s with prod := update s.prod p { t with pc := .store s.writeIndex } }
  | .store i =>
    some { s with
      transactions := update s.transactions i t.currentTransaction
      full := update s.full i true
      prod := update s.prod p { t with pc := .refetch }
      trace := s.trace ++ [.store p t.currentTransaction] }
  | .refetch => some { s with prod := update s.prod p { t with pc := .advance s.writeIndex } }
  | .advance i =>
    some { s with
      writeIndex := (i + 1) % prm.bufferSize
      prod := update s.prod p { t with pc := .postMutex } }
  | .postMutex =>
    some { s with
      mutex := update s.mutex wr (s.mutex wr + 1)
      prod := update s.prod p { t with pc := .postN } }
  | .postN => some { s with n := s.n + 1, prod := update s.prod p { t with pc := .next } }
  | .next => some { s with prod := update s.prod p { t with pc := .loop, ops := t.ops.tail } }
  | .done => none

/-- The next step of consumer `c`, whose section is guarded by `rd`. -/
def processTransactions (rd : μ) (s : State prm μ) (c : Fin prm.numConsumers) :
    Option (State prm μ) :=
  let t := s.cons c
  match t.pc with
  | .loop =>
    if 0 < t.numOps then some { s with cons := update s.cons c { t with pc := .waitN } }
    else some { s with cons := update s.cons c { t with pc := .done } }
  | .waitN =>
    if 0 < s.n then
      some { s with n := s.n - 1, cons := update s.cons c { t with pc := .waitMutex } }
    else none
  | .waitMutex =>
    if 0 < s.mutex rd then
      some { s with
        mutex := update s.mutex rd (s.mutex rd - 1)
        cons := update s.cons c { t with pc := .fetch } }
    else none
  | .fetch => some { s with cons := update s.cons c { t with pc := .load s.readIndex } }
  | .load i =>
    -- the right-hand side of `deposit += transactions[read_index]`
    some { s with
      full := update s.full i false
      cons := update s.cons c { t with pc := .loadDeposit (s.transactions i) }
      trace := s.trace ++ [.load c (s.transactions i)] }
  | .loadDeposit v =>
    some { s with cons := update s.cons c { t with pc := .storeDeposit v s.deposit } }
  | .storeDeposit v d =>
    some { s with
      deposit := d + v
      cons := update s.cons c { t with pc := .refetch }
      added := s.added ++ [v] }
  | .refetch => some { s with cons := update s.cons c { t with pc := .advance s.readIndex } }
  | .advance i =>
    some { s with
      readIndex := (i + 1) % prm.bufferSize
      cons := update s.cons c { t with pc := .test } }
  | .test =>
    -- `read_index` is read again, after the update
    if s.readIndex % 100 = 0 then
      some { s with cons := update s.cons c { t with pc := .report } }
    else some { s with cons := update s.cons c { t with pc := .postMutex } }
  | .report =>
    some { s with
      cons := update s.cons c { t with pc := .postMutex }
      reports := s.reports ++ [((loads s.trace).length, s.deposit)] }
  | .postMutex =>
    some { s with
      mutex := update s.mutex rd (s.mutex rd + 1)
      cons := update s.cons c { t with pc := .postE } }
  | .postE => some { s with e := s.e + 1, cons := update s.cons c { t with pc := .next } }
  | .next =>
    some { s with cons := update s.cons c { t with pc := .loop, numOps := t.numOps - 1 } }
  | .done => none

/-- What `main` leaves before the first step of a thread: the mutexes at 1, the
indexes at 0, `n` and `e` as initialised. -/
def mainState (prm : Params) (μ : Type) (n e : ℕ) : State prm μ where
  mutex _ := 1
  n := n
  e := e
  transactions _ := 0
  deposit := prm.initialDeposit
  readIndex := 0
  writeIndex := 0
  prod p := ⟨.loop, prm.values p, 0⟩
  cons c := ⟨.loop, prm.numOps c⟩
  trace := []
  full _ := false
  added := []
  reports := []

/-- The step of a thread when the two sides take the mutexes `wr` and `rd`. -/
def threadStep (wr rd : μ) (s : State prm μ) : Thread prm → Option (State prm μ)
  | .producer p => performTransactions wr s p
  | .consumer c => processTransactions rd s c

/-- The program whose two sides take the mutexes `wr` and `rd`. -/
def program (prm : Params) (wr rd : μ) : Machine (State prm μ) (Thread prm) where
  init s := s = mainState prm μ 0 prm.bufferSize
  step := threadStep wr rd

end Program

/-! ### The steps -/

section Steps

variable {prm : Params} {μ : Type} [DecidableEq μ]

/-- A step of producer `p`, with what it has found. -/
inductive ProducerStep (wr : μ) (s : State prm μ) (p : Fin prm.numProducers) :
    State prm μ → Prop
  | ended : (s.prod p).pc = .loop → (s.prod p).ops = [] →
      ProducerStep wr s p { s with prod := update s.prod p { s.prod p with pc := .done } }
  | produce (v : CInt) (rest : List CInt) : (s.prod p).pc = .loop → (s.prod p).ops = v :: rest →
      ProducerStep wr s p { s with
        prod := update s.prod p { s.prod p with pc := .waitE, currentTransaction := v } }
  | waitE : (s.prod p).pc = .waitE → 0 < s.e → ProducerStep wr s p { s with
      e := s.e - 1
      prod := update s.prod p { s.prod p with pc := .waitMutex } }
  | waitMutex : (s.prod p).pc = .waitMutex → 0 < s.mutex wr → ProducerStep wr s p { s with
      mutex := update s.mutex wr (s.mutex wr - 1)
      prod := update s.prod p { s.prod p with pc := .fetch } }
  | fetch : (s.prod p).pc = .fetch → ProducerStep wr s p { s with
      prod := update s.prod p { s.prod p with pc := .store s.writeIndex } }
  | store (i : ℕ) : (s.prod p).pc = .store i → ProducerStep wr s p { s with
      transactions := update s.transactions i (s.prod p).currentTransaction
      full := update s.full i true
      prod := update s.prod p { s.prod p with pc := .refetch }
      trace := s.trace ++ [.store p (s.prod p).currentTransaction] }
  | refetch : (s.prod p).pc = .refetch → ProducerStep wr s p { s with
      prod := update s.prod p { s.prod p with pc := .advance s.writeIndex } }
  | advance (i : ℕ) : (s.prod p).pc = .advance i → ProducerStep wr s p { s with
      writeIndex := (i + 1) % prm.bufferSize
      prod := update s.prod p { s.prod p with pc := .postMutex } }
  | postMutex : (s.prod p).pc = .postMutex → ProducerStep wr s p { s with
      mutex := update s.mutex wr (s.mutex wr + 1)
      prod := update s.prod p { s.prod p with pc := .postN } }
  | postN : (s.prod p).pc = .postN → ProducerStep wr s p { s with
      n := s.n + 1
      prod := update s.prod p { s.prod p with pc := .next } }
  | next : (s.prod p).pc = .next → ProducerStep wr s p { s with
      prod := update s.prod p { s.prod p with pc := .loop, ops := (s.prod p).ops.tail } }

/-- A step of consumer `c`, with what it has found. -/
inductive ConsumerStep (rd : μ) (s : State prm μ) (c : Fin prm.numConsumers) :
    State prm μ → Prop
  | ended : (s.cons c).pc = .loop → (s.cons c).numOps = 0 →
      ConsumerStep rd s c { s with cons := update s.cons c { s.cons c with pc := .done } }
  | round : (s.cons c).pc = .loop → 0 < (s.cons c).numOps →
      ConsumerStep rd s c { s with cons := update s.cons c { s.cons c with pc := .waitN } }
  | waitN : (s.cons c).pc = .waitN → 0 < s.n → ConsumerStep rd s c { s with
      n := s.n - 1
      cons := update s.cons c { s.cons c with pc := .waitMutex } }
  | waitMutex : (s.cons c).pc = .waitMutex → 0 < s.mutex rd → ConsumerStep rd s c { s with
      mutex := update s.mutex rd (s.mutex rd - 1)
      cons := update s.cons c { s.cons c with pc := .fetch } }
  | fetch : (s.cons c).pc = .fetch → ConsumerStep rd s c { s with
      cons := update s.cons c { s.cons c with pc := .load s.readIndex } }
  | load (i : ℕ) : (s.cons c).pc = .load i → ConsumerStep rd s c { s with
      full := update s.full i false
      cons := update s.cons c { s.cons c with pc := .loadDeposit (s.transactions i) }
      trace := s.trace ++ [.load c (s.transactions i)] }
  | loadDeposit (v : CInt) : (s.cons c).pc = .loadDeposit v → ConsumerStep rd s c { s with
      cons := update s.cons c { s.cons c with pc := .storeDeposit v s.deposit } }
  | storeDeposit (v d : CInt) : (s.cons c).pc = .storeDeposit v d → ConsumerStep rd s c { s with
      deposit := d + v
      cons := update s.cons c { s.cons c with pc := .refetch }
      added := s.added ++ [v] }
  | refetch : (s.cons c).pc = .refetch → ConsumerStep rd s c { s with
      cons := update s.cons c { s.cons c with pc := .advance s.readIndex } }
  | advance (i : ℕ) : (s.cons c).pc = .advance i → ConsumerStep rd s c { s with
      readIndex := (i + 1) % prm.bufferSize
      cons := update s.cons c { s.cons c with pc := .test } }
  | due : (s.cons c).pc = .test → s.readIndex % 100 = 0 →
      ConsumerStep rd s c { s with cons := update s.cons c { s.cons c with pc := .report } }
  | notDue : (s.cons c).pc = .test → s.readIndex % 100 ≠ 0 →
      ConsumerStep rd s c { s with cons := update s.cons c { s.cons c with pc := .postMutex } }
  | report : (s.cons c).pc = .report → ConsumerStep rd s c { s with
      cons := update s.cons c { s.cons c with pc := .postMutex }
      reports := s.reports ++ [((loads s.trace).length, s.deposit)] }
  | postMutex : (s.cons c).pc = .postMutex → ConsumerStep rd s c { s with
      mutex := update s.mutex rd (s.mutex rd + 1)
      cons := update s.cons c { s.cons c with pc := .postE } }
  | postE : (s.cons c).pc = .postE → ConsumerStep rd s c { s with
      e := s.e + 1
      cons := update s.cons c { s.cons c with pc := .next } }
  | next : (s.cons c).pc = .next → ConsumerStep rd s c { s with
      cons := update s.cons c { s.cons c with pc := .loop, numOps := (s.cons c).numOps - 1 } }

variable {wr rd : μ} {s s' : State prm μ} {p : Fin prm.numProducers} {c : Fin prm.numConsumers}

theorem producer_step (h : performTransactions wr s p = some s') : ProducerStep wr s p s' := by
  unfold performTransactions at h
  cases hpc : (s.prod p).pc with
  | loop =>
    simp only [hpc] at h
    split at h
    · next hops =>
      cases h
      exact .ended hpc hops
    · next v rest hops =>
      cases h
      exact .produce v rest hpc hops
  | waitE =>
    simp only [hpc] at h
    split_ifs at h with hpos
    cases h
    exact .waitE hpc hpos
  | waitMutex =>
    simp only [hpc] at h
    split_ifs at h with hpos
    cases h
    exact .waitMutex hpc hpos
  | fetch =>
    simp only [hpc] at h
    cases h
    exact .fetch hpc
  | store i =>
    simp only [hpc] at h
    cases h
    exact .store i hpc
  | refetch =>
    simp only [hpc] at h
    cases h
    exact .refetch hpc
  | advance i =>
    simp only [hpc] at h
    cases h
    exact .advance i hpc
  | postMutex =>
    simp only [hpc] at h
    cases h
    exact .postMutex hpc
  | postN =>
    simp only [hpc] at h
    cases h
    exact .postN hpc
  | next =>
    simp only [hpc] at h
    cases h
    exact .next hpc
  | done =>
    simp only [hpc] at h
    cases h

theorem consumer_step (h : processTransactions rd s c = some s') : ConsumerStep rd s c s' := by
  unfold processTransactions at h
  cases hpc : (s.cons c).pc with
  | loop =>
    simp only [hpc] at h
    split_ifs at h with hops
    · cases h
      exact .round hpc hops
    · cases h
      exact .ended hpc (Nat.eq_zero_of_not_pos hops)
  | waitN =>
    simp only [hpc] at h
    split_ifs at h with hpos
    cases h
    exact .waitN hpc hpos
  | waitMutex =>
    simp only [hpc] at h
    split_ifs at h with hpos
    cases h
    exact .waitMutex hpc hpos
  | test =>
    simp only [hpc] at h
    split_ifs at h with hdue
    · cases h
      exact .due hpc hdue
    · cases h
      exact .notDue hpc hdue
  | fetch =>
    simp only [hpc] at h
    cases h
    exact .fetch hpc
  | load i =>
    simp only [hpc] at h
    cases h
    exact .load i hpc
  | loadDeposit v =>
    simp only [hpc] at h
    cases h
    exact .loadDeposit v hpc
  | storeDeposit v d =>
    simp only [hpc] at h
    cases h
    exact .storeDeposit v d hpc
  | refetch =>
    simp only [hpc] at h
    cases h
    exact .refetch hpc
  | advance i =>
    simp only [hpc] at h
    cases h
    exact .advance i hpc
  | report =>
    simp only [hpc] at h
    cases h
    exact .report hpc
  | postMutex =>
    simp only [hpc] at h
    cases h
    exact .postMutex hpc
  | postE =>
    simp only [hpc] at h
    cases h
    exact .postE hpc
  | next =>
    simp only [hpc] at h
    cases h
    exact .next hpc
  | done =>
    simp only [hpc] at h
    cases h

/-- A producer that cannot move has finished, or waits at a semaphore at zero. -/
theorem performTransactions_eq_none (h : performTransactions wr s p = none) :
    (s.prod p).pc = .done ∨ ((s.prod p).pc = .waitE ∧ s.e = 0) ∨
      ((s.prod p).pc = .waitMutex ∧ s.mutex wr = 0) := by
  unfold performTransactions at h
  cases hpc : (s.prod p).pc with
  | done => exact .inl rfl
  | waitE =>
    simp only [hpc] at h
    split_ifs at h with hpos
    exact .inr (.inl ⟨rfl, Nat.eq_zero_of_not_pos hpos⟩)
  | waitMutex =>
    simp only [hpc] at h
    split_ifs at h with hpos
    exact .inr (.inr ⟨rfl, Nat.eq_zero_of_not_pos hpos⟩)
  | loop =>
    simp only [hpc] at h
    split at h <;> cases h
  | fetch | store i | refetch | advance i | postMutex | postN | next =>
    simp only [hpc] at h
    cases h

theorem processTransactions_eq_none (h : processTransactions rd s c = none) :
    (s.cons c).pc = .done ∨ ((s.cons c).pc = .waitN ∧ s.n = 0) ∨
      ((s.cons c).pc = .waitMutex ∧ s.mutex rd = 0) := by
  unfold processTransactions at h
  cases hpc : (s.cons c).pc with
  | done => exact .inl rfl
  | waitN =>
    simp only [hpc] at h
    split_ifs at h with hpos
    exact .inr (.inl ⟨rfl, Nat.eq_zero_of_not_pos hpos⟩)
  | waitMutex =>
    simp only [hpc] at h
    split_ifs at h with hpos
    exact .inr (.inr ⟨rfl, Nat.eq_zero_of_not_pos hpos⟩)
  | loop | test =>
    simp only [hpc] at h
    split at h <;> cases h
  | fetch | load i | loadDeposit v | storeDeposit v d | refetch | advance i | report | postMutex
  | postE | next =>
    simp only [hpc] at h
    cases h

end Steps

/-! ### The programs -/

/-- The mutexes of `producer_consumer_n_m.c`. -/
inductive TwoMutexes
  | writeS
  | readS
  deriving DecidableEq, Repr

/-- The mutex of the other programs. -/
inductive OneMutex
  | s
  deriving DecidableEq, Repr

def producerConsumerNM (prm : Params) : Machine (State prm TwoMutexes) (Thread prm) :=
  program prm .writeS .readS

def producerConsumer1M (prm : Params) : Machine (State prm OneMutex) (Thread prm) :=
  program prm .s .s

def producerConsumerN1 (prm : Params) : Machine (State prm OneMutex) (Thread prm) :=
  program prm .s .s

end ProducerConsumer
