/-
The threads of `producer_consumer.c`, the program that the others of Lab03 complete.

The loops are those of `performTransactions` and `processTransactions` without semaphores, one
program point for each load or store of `transactions[]`, `write_index`, `read_index` and
`deposit`.  The file has one thread on each side; the numbers of threads are parameters, as in the
programs with semaphores.

* `program` — the program;
* `step_erase` — the values have no influence on what the threads do.
-/
import SistemiDiCalcolo.ProducerConsumer

open Function (update)
open ProducerConsumer (Params)

namespace Unguarded

/-- Program points of `performTransactions`; `store i` and `advance i` carry the value of
`write_index` just loaded. -/
inductive ProducerPc
  | loop
  | fetch
  | store (i : ℕ)
  | refetch
  | advance (i : ℕ)
  | next
  | done
  deriving DecidableEq, Repr

/-- A producer thread; `args->numOps` is the length of `ops`. -/
structure Producer where
  pc : ProducerPc
  ops : List CInt
  currentTransaction : CInt
  deriving DecidableEq, Repr

/-- Program points of `processTransactions`; `load i` and `advance i` carry the value of
`read_index` just loaded, `loadDeposit v` and `storeDeposit v d` the transaction and the deposit
just loaded. -/
inductive ConsumerPc
  | loop
  | fetch
  | load (i : ℕ)
  | loadDeposit (v : CInt)
  | storeDeposit (v d : CInt)
  | refetch
  | advance (i : ℕ)
  | test
  | report
  | next
  | done
  deriving DecidableEq, Repr

/-- A consumer thread. -/
structure Consumer where
  pc : ConsumerPc
  numOps : ℕ
  deriving DecidableEq, Repr

/-- The shared variables, the threads, the trace of the accesses to `transactions[]`, the values
added to `deposit` and the balances reported. -/
structure State (n m : ℕ) where
  transactions : ℕ → CInt
  deposit : CInt
  readIndex : ℕ
  writeIndex : ℕ
  prod : Fin n → Producer
  cons : Fin m → Consumer
  trace : List (Event (Fin n) (Fin m) CInt)
  added : List CInt
  reports : List (ℕ × CInt)

inductive Thread (n m : ℕ)
  | producer (p : Fin n)
  | consumer (c : Fin m)

section Program

variable {n m : ℕ}

/-- The next step of producer `p`. -/
def performTransactions (B : ℕ) (s : State n m) (p : Fin n) : Option (State n m) :=
  let t := s.prod p
  match t.pc with
  | .loop =>
    match t.ops with
    | [] => some { s with prod := update s.prod p { t with pc := .done } }
    | v :: _ =>
      some { s with prod := update s.prod p { t with pc := .fetch, currentTransaction := v } }
  | .fetch => some { s with prod := update s.prod p { t with pc := .store s.writeIndex } }
  | .store i =>
    some { s with
      transactions := update s.transactions i t.currentTransaction
      prod := update s.prod p { t with pc := .refetch }
      trace := s.trace ++ [.store p t.currentTransaction] }
  | .refetch => some { s with prod := update s.prod p { t with pc := .advance s.writeIndex } }
  | .advance i =>
    some { s with
      writeIndex := (i + 1) % B
      prod := update s.prod p { t with pc := .next } }
  | .next => some { s with prod := update s.prod p { t with pc := .loop, ops := t.ops.tail } }
  | .done => none

/-- The next step of consumer `c`. -/
def processTransactions (B : ℕ) (s : State n m) (c : Fin m) : Option (State n m) :=
  let t := s.cons c
  match t.pc with
  | .loop =>
    if 0 < t.numOps then some { s with cons := update s.cons c { t with pc := .fetch } }
    else some { s with cons := update s.cons c { t with pc := .done } }
  | .fetch => some { s with cons := update s.cons c { t with pc := .load s.readIndex } }
  | .load i =>
    some { s with
      cons := update s.cons c { t with pc := .loadDeposit (s.transactions i) }
      trace := s.trace ++ [.load c (s.transactions i)] }
  | .loadDeposit v =>
    some { s with cons := update s.cons c { t with pc := .storeDeposit v s.deposit } }
  | .storeDeposit v d =>
    some { s with
      deposit := d + v
      cons := update s.cons c { t with pc := .refetch }
      added := s.added ++ [v] }
  | .refetch => some { s with cons := update s.cons c { t with pc := .advance s.readIndex } }
  | .advance i =>
    some { s with
      readIndex := (i + 1) % B
      cons := update s.cons c { t with pc := .test } }
  | .test =>
    if s.readIndex % 100 = 0 then
      some { s with cons := update s.cons c { t with pc := .report } }
    else some { s with cons := update s.cons c { t with pc := .next } }
  | .report =>
    some { s with
      cons := update s.cons c { t with pc := .next }
      reports := s.reports ++ [((loads s.trace).length, s.deposit)] }
  | .next =>
    some { s with cons := update s.cons c { t with pc := .loop, numOps := t.numOps - 1 } }
  | .done => none

/-- The step of a thread. -/
def step (B : ℕ) (s : State n m) : Thread n m → Option (State n m)
  | .producer p => performTransactions B s p
  | .consumer c => processTransactions B s c

/-- What `main` leaves before the first step of a thread. -/
def start (prm : Params) : State prm.numProducers prm.numConsumers where
  transactions _ := 0
  deposit := prm.initialDeposit
  readIndex := 0
  writeIndex := 0
  prod p := ⟨.loop, prm.values p, 0⟩
  cons c := ⟨.loop, prm.numOps c⟩
  trace := []
  added := []
  reports := []

def program (prm : Params) : Machine (State prm.numProducers prm.numConsumers)
    (Thread prm.numProducers prm.numConsumers) where
  init s := s = start prm
  step := step prm.bufferSize

end Program

/-! ### The values -/

section Erase

variable {n m B : ℕ} {s : State n m}

/-- An access without its value. -/
def eraseEvent {ι κ : Type*} : Event ι κ CInt → Event ι κ CInt
  | .store p _ => .store p 0
  | .load c _ => .load c 0

def Producer.erase (t : Producer) : Producer := ⟨t.pc, t.ops.map fun _ => 0, 0⟩

def ConsumerPc.erase : ConsumerPc → ConsumerPc
  | .loadDeposit _ => .loadDeposit 0
  | .storeDeposit _ _ => .storeDeposit 0 0
  | .loop => .loop
  | .fetch => .fetch
  | .load i => .load i
  | .refetch => .refetch
  | .advance i => .advance i
  | .test => .test
  | .report => .report
  | .next => .next
  | .done => .done

def Consumer.erase (t : Consumer) : Consumer := ⟨t.pc.erase, t.numOps⟩

/-- A state without the values of the transactions. -/
def State.erase (s : State n m) : State n m where
  transactions _ := 0
  deposit := 0
  readIndex := s.readIndex
  writeIndex := s.writeIndex
  prod := Producer.erase ∘ s.prod
  cons := Consumer.erase ∘ s.cons
  trace := s.trace.map eraseEvent
  added := s.added.map fun _ => 0
  reports := s.reports.map fun r => (r.1, 0)

theorem length_stores_erase {ι κ : Type*} (tr : List (Event ι κ CInt)) :
    (stores (tr.map eraseEvent)).length = (stores tr).length := by
  have hstores : stores (tr.map eraseEvent) = (stores tr).map fun _ => 0 := by
    rw [stores, stores, List.filterMap_map, List.map_filterMap]
    exact congrArg (List.filterMap · tr) (funext fun x => by cases x <;> rfl)
  rw [hstores, List.length_map]

theorem length_loads_erase {ι κ : Type*} (tr : List (Event ι κ CInt)) :
    (loads (tr.map eraseEvent)).length = (loads tr).length := by
  have hloads : loads (tr.map eraseEvent) = (loads tr).map fun _ => 0 := by
    rw [loads, loads, List.filterMap_map, List.map_filterMap]
    exact congrArg (List.filterMap · tr) (funext fun x => by cases x <;> rfl)
  rw [hloads, List.length_map]

theorem performTransactions_erase (p : Fin n) :
    performTransactions B s.erase p = (performTransactions B s p).map State.erase := by
  have hpc : (s.erase.prod p).pc = (s.prod p).pc := rfl
  unfold performTransactions
  cases h : (s.prod p).pc with
  | loop =>
    cases hops : (s.prod p).ops <;>
      simp [State.erase, Producer.erase, Function.comp_update, h, hops]
  | store i =>
    simp [State.erase, Producer.erase, eraseEvent, Function.comp_update, h]
  | fetch | refetch | advance i | next | done =>
    simp [State.erase, Producer.erase, Function.comp_update, h]

theorem processTransactions_erase (c : Fin m) :
    processTransactions B s.erase c = (processTransactions B s c).map State.erase := by
  have hpc : (s.erase.cons c).pc = (s.cons c).pc.erase := rfl
  unfold processTransactions
  cases h : (s.cons c).pc with
  | loop | test =>
    simp only [hpc, h, ConsumerPc.erase]
    split <;> simp_all [State.erase, Consumer.erase, ConsumerPc.erase, Function.comp_update]
  | report =>
    simp [State.erase, Consumer.erase, ConsumerPc.erase, Function.comp_update, h,
      length_loads_erase]
  | load i =>
    simp [State.erase, Consumer.erase, ConsumerPc.erase, eraseEvent, Function.comp_update, h]
  | fetch | loadDeposit v | storeDeposit v x | refetch | advance i | next | done =>
    simp [State.erase, Consumer.erase, ConsumerPc.erase, Function.comp_update, h]

/-- **The values have no influence** on what the threads do. -/
theorem step_erase (s : State n m) (t : Thread n m) :
    step B s.erase t = (step B s t).map State.erase := by
  cases t with
  | producer p => exact performTransactions_erase p
  | consumer c => exact processTransactions_erase c

end Erase

end Unguarded
