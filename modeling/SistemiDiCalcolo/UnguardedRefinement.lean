/-
The programs of Lab03 with semaphores are `producer_consumer.c` under fewer schedules.

* `threadStep_of` — a step of a thread is one of the program without semaphores, or a semaphore
  operation, which that program does not see;
* `exists_run_of` — so a run with semaphores is one without, in which every load comes after the
  store of its number and less than a round of stores later.
-/
import SistemiDiCalcolo.Unguarded
import SistemiDiCalcolo.LatestWrite
import SistemiDiCalcolo.ProducerConsumerTraces

open Function (update)
open LatestWrite
open ProducerConsumer (Params)

namespace Unguarded

/-- A program point without the semaphores: the waits come before the first load of the index, the
posts after the section. -/
def ProducerPc.of : ProducerConsumer.ProducerPc → ProducerPc
  | .loop => .loop
  | .waitE | .waitMutex | .fetch => .fetch
  | .store i => .store i
  | .refetch => .refetch
  | .advance i => .advance i
  | .postMutex | .postN | .next => .next
  | .done => .done

def ConsumerPc.of : ProducerConsumer.ConsumerPc → ConsumerPc
  | .loop => .loop
  | .waitN | .waitMutex | .fetch => .fetch
  | .load i => .load i
  | .loadDeposit v => .loadDeposit v
  | .storeDeposit v d => .storeDeposit v d
  | .refetch => .refetch
  | .advance i => .advance i
  | .test => .test
  | .report => .report
  | .postMutex | .postE | .next => .next
  | .done => .done

def Producer.of (t : ProducerConsumer.Producer) : Producer :=
  ⟨.of t.pc, t.ops, t.currentTransaction⟩

def Consumer.of (t : ProducerConsumer.Consumer) : Consumer := ⟨.of t.pc, t.numOps⟩

variable {prm : Params} {μ : Type}

/-- A state without the semaphores. -/
def State.of (s : ProducerConsumer.State prm μ) :
    State prm.numProducers prm.numConsumers where
  transactions := s.transactions
  deposit := s.deposit
  readIndex := s.readIndex
  writeIndex := s.writeIndex
  prod := Producer.of ∘ s.prod
  cons := Consumer.of ∘ s.cons
  trace := s.trace
  added := s.added
  reports := s.reports

variable {s s' : ProducerConsumer.State prm μ}

/-- A move that is only one of the program point with semaphores. -/
theorem update_of_prod {p : Fin prm.numProducers} {t : ProducerConsumer.Producer}
    (h : Producer.of t = Producer.of (s.prod p)) :
    Producer.of ∘ update s.prod p t = Producer.of ∘ s.prod := by
  rw [Function.comp_update, h]
  exact Function.update_eq_self p _

theorem update_of_cons {c : Fin prm.numConsumers} {t : ProducerConsumer.Consumer}
    (h : Consumer.of t = Consumer.of (s.cons c)) :
    Consumer.of ∘ update s.cons c t = Consumer.of ∘ s.cons := by
  rw [Function.comp_update, h]
  exact Function.update_eq_self c _

variable [DecidableEq μ] {wr rd : μ}

/-- A step of a producer is one without the semaphores, or a semaphore operation. -/
theorem performTransactions_of {p : Fin prm.numProducers}
    (h : ProducerConsumer.performTransactions wr s p = some s') :
    State.of s' = State.of s ∨
      performTransactions prm.bufferSize (State.of s) p = some (State.of s') := by
  cases ProducerConsumer.producer_step h with
  | waitE hpc _ | waitMutex hpc _ | postMutex hpc | postN hpc =>
    left
    simp only [State.of]
    rw [update_of_prod (by simp [Producer.of, hpc, ProducerPc.of])]
  | ended hpc hops | produce v rest hpc hops =>
    right
    simp [performTransactions, State.of, Producer.of, ProducerPc.of, Function.comp_update, hpc,
      hops]
  | fetch hpc | store i hpc | refetch hpc | advance i hpc | next hpc =>
    right
    simp [performTransactions, State.of, Producer.of, ProducerPc.of, Function.comp_update, hpc]

/-- A step of a consumer is one without the semaphores, or a semaphore operation. -/
theorem processTransactions_of {c : Fin prm.numConsumers}
    (h : ProducerConsumer.processTransactions rd s c = some s') :
    State.of s' = State.of s ∨
      processTransactions prm.bufferSize (State.of s) c = some (State.of s') := by
  cases ProducerConsumer.consumer_step h with
  | waitN hpc _ | waitMutex hpc _ | postMutex hpc | postE hpc =>
    left
    simp only [State.of]
    rw [update_of_cons (by simp [Consumer.of, hpc, ConsumerPc.of])]
  | ended hpc hops | round hpc hops | due hpc hops | notDue hpc hops =>
    right
    simp [processTransactions, State.of, Consumer.of, ConsumerPc.of, Function.comp_update, hpc,
      hops]
  | fetch hpc | load i hpc | loadDeposit v hpc | storeDeposit v d hpc | refetch hpc
  | advance i hpc | report hpc | next hpc =>
    right
    simp [processTransactions, State.of, Consumer.of, ConsumerPc.of, Function.comp_update, hpc]

/-- A thread of a program with semaphores. -/
def Thread.of : ProducerConsumer.Thread prm → Thread prm.numProducers prm.numConsumers
  | .producer p => .producer p
  | .consumer c => .consumer c

theorem threadStep_of {t : ProducerConsumer.Thread prm}
    (h : ProducerConsumer.threadStep wr rd s t = some s') :
    State.of s' = State.of s ∨
      (program prm).step (State.of s) (Thread.of t) = some (State.of s') := by
  cases t with
  | producer p => exact performTransactions_of h
  | consumer c => exact processTransactions_of h

/-- **The semaphores only take interleavings away**: whatever mutexes the two sides take and
however many threads there are, a run of a program with semaphores is, but for the semaphore
operations, a run of the program without, with the same accesses to `transactions[]`, the same
indexes, deposit and reports; and in all of it the loads are where they have to be. -/
theorem exists_run_of (prm : Params) (wr rd : μ) (ts : List (ProducerConsumer.Thread prm))
    {s : ProducerConsumer.State prm μ}
    (h : (ProducerConsumer.program prm wr rd).run
      (ProducerConsumer.mainState prm μ 0 prm.bufferSize) ts = some s) :
    (∃ us, us.Sublist (ts.map Thread.of) ∧
      (program prm).run (start prm) us = some (State.of s)) ∧
    InWindow prm.bufferSize s.trace := by
  constructor
  · exact Machine.run_sublist (N := program prm) (f := State.of) (g := Thread.of)
      (fun _ _ _ hstep => threadStep_of hstep) h
  · have hr : (ProducerConsumer.program prm wr rd).Reachable s :=
      Machine.reachable_iff_run.mpr ⟨_, ts, rfl, h⟩
    exact (ProducerConsumer.trace_mem_queueTraces hr).1.inWindow

/-- Two threads on each side, and a ring of two cells. -/
abbrev pairs : Params where
  numProducers := 2
  numConsumers := 2
  bufferSize := 2
  bufferSize_pos := Nat.two_pos
  initialDeposit := 1000
  values p := [BitVec.ofNat 32 p.val, 7]
  numOps _ := 2

/-- Three stores and two loads by all four threads, with the semaphores between them. -/
def pairsSchedule (p q : Fin 2) (c d : Fin 2) : List (ProducerConsumer.Thread pairs) :=
  List.replicate 10 (.producer p) ++ List.replicate 5 (.producer q)
    ++ List.replicate 7 (.consumer c) ++ List.replicate 5 (.producer q)
    ++ List.replicate 2 (.consumer d) ++ List.replicate 6 (.consumer c)
    ++ List.replicate 5 (.producer p) ++ List.replicate 3 (.consumer d)

theorem exists_run_of_pairs : ∃ p q c d,
    ∃ s : ProducerConsumer.State pairs ProducerConsumer.TwoMutexes,
      s.trace = [.store p 0, .store q 1, .load c 0, .store p 7, .load d 1] ∧
      (∃ us, us.Sublist ((pairsSchedule p q c d).map Thread.of) ∧
        (program pairs).run (start pairs) us = some (State.of s)) ∧ InWindow 2 s.trace :=
  ⟨0, 1, 0, 1, _, rfl, exists_run_of pairs .writeS .readS (pairsSchedule 0 1 0 1) rfl⟩

end Unguarded
