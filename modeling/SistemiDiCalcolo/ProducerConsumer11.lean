/-
The semaphores of `producer_consumer_1_1.c`.

The loops of its two threads are those of the other programs with one mutex,
but the third `sem_init` of `main` is given `n` again, and the 0 it returns is
assigned to `e`.  So `n` starts at `BUFFER_SIZE`, and `e` is the null pointer:
the consumer passes its `sem_wait(n)` with nothing stored, and whoever operates
on `e` brings the process down.

* `initSemaphores_eq` — the semaphores that `main` leaves;
* `process_safe_iff` — no load of an empty cell, and no store over an unread
  one, exactly when the consumer has nothing to do.
-/
import SistemiDiCalcolo.ProducerConsumer

open Function (update)

namespace ProducerConsumer

/-! ### What `main` leaves -/

/-- The three semaphore variables, and the semaphores allocated for them. -/
inductive Sem
  | s
  | n
  | e
  deriving DecidableEq, Repr

/-- The pointers that the variables hold, and the values of the semaphores. -/
structure Semaphores where
  pointer : Sem → Option Sem
  value : Sem → ℕ

/-- `sem_init(x, 0, v)` for a variable `x`: it sets the semaphore that `x` points
to, and returns 0. -/
def semInit (g : Semaphores) (x : Sem) (v : ℕ) : Option (Semaphores × ℤ) :=
  (g.pointer x).map fun a => ({ g with value := update g.value a v }, 0)

/-- An integer as a pointer: 0 is the null pointer, and no other integer points
to a semaphore. -/
def intPointer (_ : ℤ) : Option Sem := none

/-- The part of `main` that allocates and initialises the semaphores;
`garbage` is what `malloc` leaves in them. -/
def initSemaphores (bufferSize : ℕ) (garbage : Sem → ℕ) : Option Semaphores := do
  let g : Semaphores := ⟨some, garbage⟩
  let (g, r) ← semInit g .s 1
  guard (r = 0)
  let (g, r) ← semInit g .n 0
  guard (r = 0)
  let (g, res) ← semInit g .n bufferSize
  let g := { g with pointer := update g.pointer .e (intPointer res) }
  -- `r` still holds what the second call returned
  guard (r = 0)
  return g

theorem initSemaphores_eq (bufferSize : ℕ) (garbage : Sem → ℕ) :
    initSemaphores bufferSize garbage = some
      { pointer := update some .e none
        value := update (update (update garbage .s 1) .n 0) .n bufferSize } := rfl

/-! ### The process -/

section Process

/-- One producer that has `values` to store and one consumer with `numOps`
operations. -/
abbrev oneByOne (B : ℕ) (hB : 0 < B) (initialDeposit : CInt) (values : List CInt) (numOps : ℕ) :
    Params where
  numProducers := 1
  numConsumers := 1
  bufferSize := B
  bufferSize_pos := hB
  initialDeposit := initialDeposit
  values _ := values
  numOps _ := numOps

/-- The threads with their shared memory, the pointers they use, and whether one
of them has followed the null pointer. -/
structure Process (prm : Params) where
  memory : State prm OneMutex
  pointer : Sem → Option Sem
  crashed : Bool

variable {prm : Params}

/-- The variable that the next step of a thread passes to `sem_wait` or
`sem_post`. -/
def nextSem (s : State prm OneMutex) : Thread prm → Option Sem
  | .producer p =>
    match (s.prod p).pc with
    | .waitE => some .e
    | .waitMutex | .postMutex => some .s
    | .postN => some .n
    | _ => none
  | .consumer c =>
    match (s.cons c).pc with
    | .waitN => some .n
    | .waitMutex | .postMutex => some .s
    | .postE => some .e
    | _ => none

/-- A thread that operates on a null pointer ends the whole process. -/
def Process.step (x : Process prm) (t : Thread prm) : Option (Process prm) :=
  if x.crashed then none
  else if (nextSem x.memory t).any fun v => (x.pointer v).isNone then
    some { x with crashed := true }
  -- otherwise the variable points to the semaphore that was allocated for it
  else (threadStep .s .s x.memory t).map fun s => { x with memory := s }

/-- The state in which `main` starts the threads. -/
def Process.start (prm : Params) (g : Semaphores) : Process prm where
  memory := { mainState prm OneMutex (g.value .n) (g.value .e) with mutex := fun _ => g.value .s }
  pointer := g.pointer
  crashed := false

/-- The program of `producer_consumer_1_1.c`. -/
def producerConsumer11 (prm : Params) : Machine (Process prm) (Thread prm) where
  init x := ∃ garbage g, initSemaphores prm.bufferSize garbage = some g ∧ x = .start prm g
  step := Process.step

end Process

/-! ### When it is safe -/

section Safe

variable {B : ℕ} {hB : 0 < B} {d : CInt} {values : List CInt} {numOps : ℕ}

/-- The consumer is not about to load a cell without an unread value, nor the
producer to store over an unread value, and the values added are a prefix of
those produced. -/
structure Safe (s : State (oneByOne B hB d values numOps) OneMutex) : Prop where
  load_full : ∀ i, (s.cons 0).pc = .load i → s.full i = true
  store_free : ∀ i, (s.prod 0).pc = .store i → s.full i = false
  added : s.added <+: values

/-- A consumer that has nothing to do, and a producer that does not get past the
null pointer. -/
structure Stalled (x : Process (oneByOne B hB d values 0)) : Prop where
  pointer : x.pointer .e = none
  prod : (x.memory.prod 0).pc = .loop ∨ (x.memory.prod 0).pc = .waitE ∨
    (x.memory.prod 0).pc = .done
  cons : (x.memory.cons 0).pc = .loop ∨ (x.memory.cons 0).pc = .done
  numOps : (x.memory.cons 0).numOps = 0
  added : x.memory.added = []

theorem Stalled.safe {x : Process (oneByOne B hB d values 0)} (h : Stalled x) :
    Safe x.memory where
  load_full i hc := by rcases h.cons with hpc | hpc <;> rw [hpc] at hc <;> cases hc
  store_free i hp := by rcases h.prod with hpc | hpc | hpc <;> rw [hpc] at hp <;> cases hp
  added := h.added ▸ List.nil_prefix

theorem Stalled.step {x x' : Process (oneByOne B hB d values 0)} {t} (h : Stalled x)
    (hstep : x.step t = some x') : Stalled x' := by
  obtain ⟨hpointer, hprod, hcons, hops, hadded⟩ := h
  rw [Process.step] at hstep
  split at hstep
  · cases hstep
  split at hstep
  · cases hstep
    exact ⟨hpointer, hprod, hcons, hops, hadded⟩
  next hnull =>
    obtain ⟨s', hs', rfl⟩ := Option.map_eq_some_iff.mp hstep
    cases t with
    | producer p =>
      obtain rfl : p = 0 := Subsingleton.elim _ _
      cases producer_step hs' with
      | ended _ _ => exact ⟨hpointer, .inr (.inr rfl), hcons, hops, hadded⟩
      | produce v rest _ _ => exact ⟨hpointer, .inr (.inl rfl), hcons, hops, hadded⟩
      | waitE hpc _ => simp [nextSem, hpc, hpointer] at hnull
      | waitMutex hpc _ | fetch hpc | store i hpc | refetch hpc | advance i hpc | postMutex hpc
      | postN hpc | next hpc =>
        simp [hpc] at hprod
    | consumer c =>
      obtain rfl : c = 0 := Subsingleton.elim _ _
      cases consumer_step hs' with
      | ended _ _ => exact ⟨hpointer, hprod, .inr rfl, hops, hadded⟩
      | round _ hpos => exact absurd hops hpos.ne'
      | waitN hpc _ | waitMutex hpc _ | fetch hpc | load i hpc | loadDeposit v hpc
      | storeDeposit v d hpc | refetch hpc | advance i hpc | due hpc _ | notDue hpc _ | report hpc
      | postMutex hpc | postE hpc | next hpc =>
        simp [hpc] at hcons

theorem stalled {x : Process (oneByOne B hB d values 0)}
    (h : (producerConsumer11 (oneByOne B hB d values 0)).Reachable x) : Stalled x := by
  refine h.invariant (I := Stalled) ?_ fun _ _ _ _ => Stalled.step
  rintro x ⟨garbage, g, hg, rfl⟩
  rw [initSemaphores_eq] at hg
  cases hg
  exact ⟨rfl, .inl rfl, .inl rfl, rfl, rfl⟩

/-- A consumer with an operation to do gets to the cell at index 0 in four
steps, before anything is stored. -/
theorem run_to_load {s : State (oneByOne B hB d values numOps) OneMutex}
    {f : Sem → Option Sem} (hc : s.cons 0 = ⟨.loop, numOps⟩) (hops : 0 < numOps)
    (hn : 0 < s.n) (hs : 0 < s.mutex .s) (hfn : f .n = some .n) (hfs : f .s = some .s) :
    (producerConsumer11 (oneByOne B hB d values numOps)).run ⟨s, f, false⟩
        (List.replicate 4 (.consumer 0)) = some
      ⟨{ s with
        n := s.n - 1
        mutex := update s.mutex .s (s.mutex .s - 1)
        cons := update s.cons 0 ⟨.load s.readIndex, numOps⟩ }, f, false⟩ := by
  simp [List.replicate, Machine.run, producerConsumer11, Process.step, nextSem, threadStep,
    processTransactions, hc, hops, hn, hs, hfn, hfs]

theorem exists_not_safe (hops : 0 < numOps) :
    ∃ x, (producerConsumer11 (oneByOne B hB d values numOps)).Reachable x ∧ ¬ Safe x.memory := by
  refine ⟨_, .run (.init ⟨fun _ => 0, _, rfl, rfl⟩)
    (run_to_load rfl hops hB Nat.one_pos rfl rfl), fun hsafe => ?_⟩
  have := hsafe.load_full 0 rfl
  cases this

end Safe

/-- **`producer_consumer_1_1.c` is safe exactly when the consumer has nothing to
do**: with any operation to do, it can load a cell in which nothing has been
stored, `n` being at `BUFFER_SIZE` from the start. -/
theorem process_safe_iff (B : ℕ) (hB : 0 < B) (d : CInt) (values : List CInt) (numOps : ℕ) :
    (∀ x, (producerConsumer11 (oneByOne B hB d values numOps)).Reachable x → Safe x.memory) ↔
      numOps = 0 := by
  constructor
  · intro hsafe
    by_contra hne
    obtain ⟨x, hx, hbad⟩ := exists_not_safe (Nat.pos_of_ne_zero hne)
    exact hbad (hsafe x hx)
  · rintro rfl x hx
    exact (stalled hx).safe

/-- One operation on each side. -/
theorem process_safe_iff_one :
    (∀ x, (producerConsumer11 (oneByOne 1 Nat.one_pos 0 [5] 1)).Reachable x → Safe x.memory) ↔
      1 = 0 :=
  process_safe_iff 1 Nat.one_pos 0 [5] 1

/-- With the sizes of the program, the consumer loads the first cell before the
producer has stored anything. -/
theorem process_loads_empty_cell :
    ¬ ∀ x : Process (oneByOne 128 (by decide) 0 (List.replicate 400 1) 400),
      (producerConsumer11 _).Reachable x → Safe x.memory := by
  intro hsafe
  obtain ⟨x, hx, hbad⟩ := exists_not_safe (Nat.zero_lt_succ 399)
  exact hbad (hsafe x hx)

end ProducerConsumer
