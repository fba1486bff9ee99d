/-
The producer and the consumer of `Lab05/src/03`, which share a ring without
semaphores.

`produce` and `consume` are the two loops, one program point for each load or
store of `buf`, `read_index` and `write_index`.  Only the tests of the two
indexes keep the processes apart: `produce` skips the store when the ring looks
full to it, and `consume` spins while `write_index < read_index`.

A state also records the values stored to `buf` and the values loaded from it.
`ProduceStep` and `ConsumeStep` list what a step can do.
-/
import SistemiDiCalcolo.Machine
import SistemiDiCalcolo.Transaction

open Function (update)

namespace LockFree

/-- `BUFFER_SIZE`, the values that `produce` generates, the `numOps` of
`consume`, and what the uninitialised `localSum` of `produce` holds. -/
structure Params where
  bufferSize : ℕ
  bufferSize_pos : 0 < bufferSize
  values : List CInt
  numOps : ℕ
  garbage : CInt

/-- Program points of `produce`.  The argument of a point is the value of
`write_index` just loaded; `write_index` changes only here, so that the order of
the two loads of the test makes no difference. -/
inductive ProducerPc
  | loop
  | testWrite
  | testRead (a : ℕ)
  | fetch
  | store (i : ℕ)
  | refetch
  | advance (i : ℕ)
  | add
  | done
  deriving DecidableEq, Repr

/-- The local variables of `produce`; `numOps` is the length of `ops`. -/
structure Producer where
  pc : ProducerPc
  ops : List CInt
  value : CInt
  localSum : CInt
  deriving DecidableEq, Repr

/-- Program points of `consume`.  The argument of `waitRead` is the value of
`write_index` just loaded, that of the others the value of `read_index`. -/
inductive ConsumerPc
  | loop
  | waitWrite
  | waitRead (a : ℕ)
  | fetch
  | load (i : ℕ)
  | refetch
  | advance (i : ℕ)
  | add
  | done
  deriving DecidableEq, Repr

/-- The local variables of `consume`. -/
structure Consumer where
  pc : ConsumerPc
  numOps : ℕ
  value : CInt
  localSum : CInt
  deriving DecidableEq, Repr

structure State where
  buf : ℕ → CInt
  readIndex : ℕ
  writeIndex : ℕ
  prod : Producer
  cons : Consumer
  stored : List CInt
  loaded : List CInt

inductive Process
  | produce
  | consume
  deriving DecidableEq, Repr

/-- The next step of `produce`. -/
def produce (B : ℕ) (s : State) : Option State :=
  let t := s.prod
  match t.pc with
  | .loop =>
    match t.ops with
    | [] => some { s with prod := { t with pc := .done } }
    | v :: _ => some { s with prod := { t with pc := .testWrite, value := v } }
  | .testWrite => some { s with prod := { t with pc := .testRead s.writeIndex } }
  | .testRead a =>
    -- a full ring is not waited for: the value is passed over
    if (a + 1) % B ≠ s.readIndex then some { s with prod := { t with pc := .fetch } }
    else some { s with prod := { t with pc := .add } }
  | .fetch => some { s with prod := { t with pc := .store s.writeIndex } }
  | .store i =>
    some { s with
      buf := update s.buf i t.value
      prod := { t with pc := .refetch }
      stored := s.stored ++ [t.value] }
  | .refetch => some { s with prod := { t with pc := .advance s.writeIndex } }
  | .advance i => some { s with writeIndex := (i + 1) % B, prod := { t with pc := .add } }
  | .add =>
    -- reached with or without the store
    some { s with
      prod := { t with pc := .loop, ops := t.ops.tail, localSum := t.localSum + t.value } }
  | .done => none

/-- The next step of `consume`. -/
def consume (B : ℕ) (s : State) : Option State :=
  let t := s.cons
  match t.pc with
  | .loop =>
    if 0 < t.numOps then some { s with cons := { t with pc := .waitWrite } }
    else some { s with cons := { t with pc := .done } }
  | .waitWrite => some { s with cons := { t with pc := .waitRead s.writeIndex } }
  | .waitRead a =>
    -- the busy wait: the test is not one of equality
    if a < s.readIndex then some { s with cons := { t with pc := .waitWrite } }
    else some { s with cons := { t with pc := .fetch } }
  | .fetch => some { s with cons := { t with pc := .load s.readIndex } }
  | .load i =>
    some { s with
      cons := { t with pc := .refetch, value := s.buf i }
      loaded := s.loaded ++ [s.buf i] }
  | .refetch => some { s with cons := { t with pc := .advance s.readIndex } }
  | .advance i => some { s with readIndex := (i + 1) % B, cons := { t with pc := .add } }
  | .add =>
    some { s with
      cons := { t with pc := .loop, localSum := t.localSum + t.value, numOps := t.numOps - 1 } }
  | .done => none

/-- The memory as `initMemory` leaves it, with both processes about to enter
their loops. -/
def initMemory (prm : Params) : State where
  buf _ := 0
  readIndex := 0
  writeIndex := 0
  prod := ⟨.loop, prm.values, 0, prm.garbage⟩
  cons := ⟨.loop, prm.numOps, 0, 0⟩
  stored := []
  loaded := []

def processStep (B : ℕ) (s : State) : Process → Option State
  | .produce => produce B s
  | .consume => consume B s

/-- The two programs of `Lab05/src/03` together. -/
def program (prm : Params) : Machine State Process where
  init s := s = initMemory prm
  step := processStep prm.bufferSize

section Steps

variable {B : ℕ} {s s' : State}

/-- A step of `produce`, with what it has found. -/
inductive ProduceStep (B : ℕ) (s : State) : State → Prop
  | ended : s.prod.pc = .loop → s.prod.ops = [] →
      ProduceStep B s { s with prod := { s.prod with pc := .done } }
  | value (v : CInt) (rest : List CInt) : s.prod.pc = .loop → s.prod.ops = v :: rest →
      ProduceStep B s { s with prod := { s.prod with pc := .testWrite, value := v } }
  | testWrite : s.prod.pc = .testWrite →
      ProduceStep B s { s with prod := { s.prod with pc := .testRead s.writeIndex } }
  | free (a : ℕ) : s.prod.pc = .testRead a → (a + 1) % B ≠ s.readIndex →
      ProduceStep B s { s with prod := { s.prod with pc := .fetch } }
  | full (a : ℕ) : s.prod.pc = .testRead a → (a + 1) % B = s.readIndex →
      ProduceStep B s { s with prod := { s.prod with pc := .add } }
  | fetch : s.prod.pc = .fetch →
      ProduceStep B s { s with prod := { s.prod with pc := .store s.writeIndex } }
  | store (i : ℕ) : s.prod.pc = .store i → ProduceStep B s { s with
      buf := update s.buf i s.prod.value
      prod := { s.prod with pc := .refetch }
      stored := s.stored ++ [s.prod.value] }
  | refetch : s.prod.pc = .refetch →
      ProduceStep B s { s with prod := { s.prod with pc := .advance s.writeIndex } }
  | advance (i : ℕ) : s.prod.pc = .advance i → ProduceStep B s { s with
      writeIndex := (i + 1) % B
      prod := { s.prod with pc := .add } }
  | add : s.prod.pc = .add → ProduceStep B s { s with prod := { s.prod with
      pc := .loop
      ops := s.prod.ops.tail
      localSum := s.prod.localSum + s.prod.value } }

/-- A step of `consume`, with what it has found. -/
inductive ConsumeStep (B : ℕ) (s : State) : State → Prop
  | ended : s.cons.pc = .loop → s.cons.numOps = 0 →
      ConsumeStep B s { s with cons := { s.cons with pc := .done } }
  | round : s.cons.pc = .loop → 0 < s.cons.numOps →
      ConsumeStep B s { s with cons := { s.cons with pc := .waitWrite } }
  | waitWrite : s.cons.pc = .waitWrite →
      ConsumeStep B s { s with cons := { s.cons with pc := .waitRead s.writeIndex } }
  | waitAgain (a : ℕ) : s.cons.pc = .waitRead a → a < s.readIndex →
      ConsumeStep B s { s with cons := { s.cons with pc := .waitWrite } }
  | waitOver (a : ℕ) : s.cons.pc = .waitRead a → s.readIndex ≤ a →
      ConsumeStep B s { s with cons := { s.cons with pc := .fetch } }
  | fetch : s.cons.pc = .fetch →
      ConsumeStep B s { s with cons := { s.cons with pc := .load s.readIndex } }
  | load (i : ℕ) : s.cons.pc = .load i → ConsumeStep B s { s with
      cons := { s.cons with pc := .refetch, value := s.buf i }
      loaded := s.loaded ++ [s.buf i] }
  | refetch : s.cons.pc = .refetch →
      ConsumeStep B s { s with cons := { s.cons with pc := .advance s.readIndex } }
  | advance (i : ℕ) : s.cons.pc = .advance i → ConsumeStep B s { s with
      readIndex := (i + 1) % B
      cons := { s.cons with pc := .add } }
  | add : s.cons.pc = .add → ConsumeStep B s { s with cons := { s.cons with
      pc := .loop
      localSum := s.cons.localSum + s.cons.value
      numOps := s.cons.numOps - 1 } }

theorem produce_step (h : produce B s = some s') : ProduceStep B s s' := by
  unfold produce at h
  cases hpc : s.prod.pc with
  | loop =>
    simp only [hpc] at h
    split at h
    · next hops =>
      cases h
      exact .ended hpc hops
    · next v rest hops =>
      cases h
      exact .value v rest hpc hops
  | testRead a =>
    simp only [hpc] at h
    split_ifs at h with hfree
    · cases h
      exact .free a hpc hfree
    · cases h
      exact .full a hpc (not_not.mp hfree)
  | testWrite =>
    simp only [hpc] at h
    cases h
    exact .testWrite hpc
  | fetch =>
    simp only [hpc] at h
    cases h
    exact .fetch hpc
  | store i =>
    simp only [hpc] at h
    cases h
    exact .store i hpc
  | refetch =>
    simp only [hpc] at h
    cases h
    exact .refetch hpc
  | advance i =>
    simp only [hpc] at h
    cases h
    exact .advance i hpc
  | add =>
    simp only [hpc] at h
    cases h
    exact .add hpc
  | done =>
    simp only [hpc] at h
    cases h

theorem consume_step (h : consume B s = some s') : ConsumeStep B s s' := by
  unfold consume at h
  cases hpc : s.cons.pc with
  | loop =>
    simp only [hpc] at h
    split_ifs at h with hops
    · cases h
      exact .round hpc hops
    · cases h
      exact .ended hpc (Nat.eq_zero_of_not_pos hops)
  | waitRead a =>
    simp only [hpc] at h
    split_ifs at h with hbehind
    · cases h
      exact .waitAgain a hpc hbehind
    · cases h
      exact .waitOver a hpc (Nat.le_of_not_lt hbehind)
  | waitWrite =>
    simp only [hpc] at h
    cases h
    exact .waitWrite hpc
  | fetch =>
    simp only [hpc] at h
    cases h
    exact .fetch hpc
  | load i =>
    simp only [hpc] at h
    cases h
    exact .load i hpc
  | refetch =>
    simp only [hpc] at h
    cases h
    exact .refetch hpc
  | advance i =>
    simp only [hpc] at h
    cases h
    exact .advance i hpc
  | add =>
    simp only [hpc] at h
    cases h
    exact .add hpc
  | done =>
    simp only [hpc] at h
    cases h

/-- `produce` never waits. -/
theorem produce_eq_none (h : produce B s = none) : s.prod.pc = .done := by
  unfold produce at h
  cases hpc : s.prod.pc with
  | done => rfl
  | loop =>
    simp only [hpc] at h
    split at h <;> cases h
  | testRead a =>
    simp only [hpc] at h
    split at h <;> cases h
  | testWrite | fetch | store i | refetch | advance i | add =>
    simp only [hpc] at h
    cases h

theorem consume_eq_none (h : consume B s = none) : s.cons.pc = .done := by
  unfold consume at h
  cases hpc : s.cons.pc with
  | done => rfl
  | loop | waitRead a =>
    simp only [hpc] at h
    split at h <;> cases h
  | waitWrite | fetch | load i | refetch | advance i | add =>
    simp only [hpc] at h
    cases h

/-- `produce` leaves the side of `consume` alone. -/
theorem produce_frame (h : produce B s = some s') :
    s'.cons = s.cons ∧ s'.readIndex = s.readIndex ∧ s'.loaded = s.loaded := by
  cases produce_step h with
  | ended | value | testWrite | free | full | fetch | store | refetch | advance | add =>
    exact ⟨rfl, rfl, rfl⟩

/-- `consume` leaves the side of `produce` alone. -/
theorem consume_frame (h : consume B s = some s') :
    s'.prod = s.prod ∧ s'.writeIndex = s.writeIndex ∧ s'.stored = s.stored := by
  cases consume_step h with
  | ended | round | waitWrite | waitAgain | waitOver | fetch | load | refetch | advance | add =>
    exact ⟨rfl, rfl, rfl⟩

end Steps

end LockFree
