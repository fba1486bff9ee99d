/-
The producer/consumer programs always finish.

Every step lowers the number of steps left (`stepsLeft_step`), so runs are
bounded.  In a state where nobody can move all threads stand at a `sem_wait` or
are done; the books of the ring then leave `BUFFER_SIZE` tokens to `n` and `e`
together, and equal totals on the two sides leave no thread that could be
waiting for them (`allDone_of_stuck`).

* `no_deadlock` — no deadlock, bounded runs, and the state that every maximal
  run ends in.
-/
import SistemiDiCalcolo.ProducerConsumerDeposit
import SistemiDiCalcolo.ProducerConsumerAccounts

open Function (update)

namespace ProducerConsumer

/-! ### The steps left -/

/-- An upper bound for the steps a producer has left: ten for each operation. -/
def Producer.stepsLeft (t : Producer) : ℕ :=
  match t.pc with
  | .loop => 10 * t.ops.length + 1
  | .waitE => 10 * t.ops.tail.length + 10
  | .waitMutex => 10 * t.ops.tail.length + 9
  | .fetch => 10 * t.ops.tail.length + 8
  | .store _ => 10 * t.ops.tail.length + 7
  | .refetch => 10 * t.ops.tail.length + 6
  | .advance _ => 10 * t.ops.tail.length + 5
  | .postMutex => 10 * t.ops.tail.length + 4
  | .postN => 10 * t.ops.tail.length + 3
  | .next => 10 * t.ops.tail.length + 2
  | .done => 0

/-- For a consumer: fourteen for each operation, a report included. -/
def Consumer.stepsLeft (t : Consumer) : ℕ :=
  match t.pc with
  | .loop => 14 * t.numOps + 1
  | .waitN => 14 * (t.numOps - 1) + 14
  | .waitMutex => 14 * (t.numOps - 1) + 13
  | .fetch => 14 * (t.numOps - 1) + 12
  | .load _ => 14 * (t.numOps - 1) + 11
  | .loadDeposit _ => 14 * (t.numOps - 1) + 10
  | .storeDeposit _ _ => 14 * (t.numOps - 1) + 9
  | .refetch => 14 * (t.numOps - 1) + 8
  | .advance _ => 14 * (t.numOps - 1) + 7
  | .test => 14 * (t.numOps - 1) + 6
  | .report => 14 * (t.numOps - 1) + 5
  | .postMutex => 14 * (t.numOps - 1) + 4
  | .postE => 14 * (t.numOps - 1) + 3
  | .next => 14 * (t.numOps - 1) + 2
  | .done => 0

section StepsLeft

variable {prm : Params} {μ : Type} {s s' : State prm μ}

def State.stepsLeft (s : State prm μ) : ℕ :=
  tally Producer.stepsLeft s.prod + tally Consumer.stepsLeft s.cons

theorem State.stepsLeft_prod {p : Fin prm.numProducers} {t : Producer}
    (hprod : s'.prod = update s.prod p t) (hcons : s'.cons = s.cons)
    (ht : t.stepsLeft < (s.prod p).stepsLeft) : s'.stepsLeft < s.stepsLeft := by
  have := tally_update Producer.stepsLeft s.prod p t
  rw [stepsLeft, stepsLeft, hprod, hcons]
  omega

theorem State.stepsLeft_cons {c : Fin prm.numConsumers} {t : Consumer}
    (hcons : s'.cons = update s.cons c t) (hprod : s'.prod = s.prod)
    (ht : t.stepsLeft < (s.cons c).stepsLeft) : s'.stepsLeft < s.stepsLeft := by
  have := tally_update Consumer.stepsLeft s.cons c t
  rw [stepsLeft, stepsLeft, hprod, hcons]
  omega

variable [DecidableEq μ] {wr rd : μ}

theorem performTransactions_stepsLeft {p : Fin prm.numProducers}
    (h : performTransactions wr s p = some s') : s'.stepsLeft < s.stepsLeft := by
  cases producer_step h with
  | produce v rest hpc hops =>
    refine State.stepsLeft_prod (p := p) rfl rfl ?_
    simp only [Producer.stepsLeft, hpc, hops, List.tail_cons, List.length_cons]
    omega
  | ended hpc _ | waitE hpc _ | waitMutex hpc _ | fetch hpc | store i hpc | refetch hpc
  | advance i hpc | postMutex hpc | postN hpc | next hpc =>
    refine State.stepsLeft_prod (s := s) (p := p) rfl rfl ?_
    simp only [Producer.stepsLeft, hpc]
    omega

theorem processTransactions_stepsLeft {c : Fin prm.numConsumers}
    (h : processTransactions rd s c = some s') : s'.stepsLeft < s.stepsLeft := by
  cases consumer_step h with
  | ended hpc hops | round hpc hops | waitN hpc hops | waitMutex hpc hops | fetch hpc | load i hpc
  | loadDeposit v hpc | storeDeposit v d hpc | refetch hpc | advance i hpc | due hpc hops
  | notDue hpc hops | report hpc | postMutex hpc | postE hpc | next hpc =>
    refine State.stepsLeft_cons (s := s) (c := c) rfl rfl ?_
    simp only [Consumer.stepsLeft, hpc]
    omega

/-- **Every step lowers the number of steps left.** -/
theorem stepsLeft_step {t : Thread prm} (h : threadStep wr rd s t = some s') :
    s'.stepsLeft < s.stepsLeft := by
  cases t with
  | producer p => exact performTransactions_stepsLeft h
  | consumer c => exact processTransactions_stepsLeft h

end StepsLeft

/-! ### Who waits, and for what -/

section Stuck

variable {prm : Params} {μ : Type} {s : State prm μ}

/-- All threads have finished. -/
def State.AllDone (s : State prm μ) : Prop :=
  (∀ p, (s.prod p).pc = .done) ∧ ∀ c, (s.cons c).pc = .done

/-- No thread is in a section or holds a token. -/
def State.Idle (s : State prm μ) : Prop :=
  (∀ p, s.ring.prod p = .idle) ∧ ∀ c, s.ring.cons c = .idle

theorem State.AllDone.idle (h : s.AllDone) : s.Idle := by
  constructor
  · intro p
    show (s.prod p).pc.phase = _
    rw [h.1 p]
    rfl
  · intro c
    show (s.cons c).pc.phase = _
    rw [h.2 c]
    rfl

variable [DecidableEq μ] {wr rd : μ}

/-- With no thread in a section every mutex is free. -/
theorem mutex_free (h : (program prm wr rd).Reachable s)
    (hprod : ∀ p, (s.ring.prod p).inside = 0) (hcons : ∀ c, (s.ring.cons c).inside = 0)
    (m : μ) : s.mutex m = 1 := by
  have hl := (ring_inv h).ledger.lock m
  rw [tally_eq_zero.mpr hprod, tally_eq_zero.mpr hcons, ite_self, ite_self] at hl
  exact hl

/-- With no thread in a section or holding a token, `n` counts the unread values
and `e` the free cells. -/
theorem tokens_idle (h : (program prm wr rd).Reachable s) (hidle : s.Idle) :
    s.n + (loads s.trace).length = (stores s.trace).length ∧
      s.e + (stores s.trace).length = prm.bufferSize + (loads s.trace).length := by
  have hn := (ring_inv h).ledger.filled
  have he := (ring_inv h).ledger.empty
  have h₁ : tally SemRing.Phase.pre s.ring.prod = 0 :=
    tally_eq_zero.mpr fun p => by rw [hidle.1 p]; rfl
  have h₂ : tally SemRing.Phase.post s.ring.prod = 0 :=
    tally_eq_zero.mpr fun p => by rw [hidle.1 p]; rfl
  have h₃ : tally SemRing.Phase.pre s.ring.cons = 0 :=
    tally_eq_zero.mpr fun c => by rw [hidle.2 c]; rfl
  have h₄ : tally SemRing.Phase.post s.ring.cons = 0 :=
    tally_eq_zero.mpr fun c => by rw [hidle.2 c]; rfl
  rw [h₂, h₃] at hn
  rw [h₁, h₄] at he
  exact ⟨by simpa [State.ring] using hn, by simpa [State.ring] using he⟩

/-- In a state where nobody can move, every thread that has not finished waits
for a token. -/
theorem waiting_of_stuck (h : (program prm wr rd).Reachable s)
    (hstuck : (program prm wr rd).Stuck s) :
    (∀ p, (s.prod p).pc = .done ∨ ((s.prod p).pc = .waitE ∧ s.e = 0)) ∧
      ∀ c, (s.cons c).pc = .done ∨ ((s.cons c).pc = .waitN ∧ s.n = 0) := by
  have hprod := fun p => performTransactions_eq_none (hstuck (.producer p))
  have hcons := fun c => processTransactions_eq_none (hstuck (.consumer c))
  -- nobody is in a section, so nobody waits for a mutex
  have hfree := mutex_free h
    (fun p => by
      show (s.prod p).pc.phase.inside = 0
      rcases hprod p with hp | ⟨hp, -⟩ | ⟨hp, -⟩ <;> rw [hp] <;> rfl)
    (fun c => by
      show (s.cons c).pc.phase.inside = 0
      rcases hcons c with hc | ⟨hc, -⟩ | ⟨hc, -⟩ <;> rw [hc] <;> rfl)
  constructor
  · intro p
    rcases hprod p with hp | hp | ⟨-, hm⟩
    · exact .inl hp
    · exact .inr hp
    · rw [hfree] at hm
      omega
  · intro c
    rcases hcons c with hc | hc | ⟨-, hm⟩
    · exact .inl hc
    · exact .inr hc
    · rw [hfree] at hm
      omega

theorem toStore_of_done (h : (program prm wr rd).Reachable s) {p : Fin prm.numProducers}
    (hp : (s.prod p).pc = .done) : (s.prod p).toStore = [] := by
  have hok := (accounts h).prodOk p
  rw [Producer.Coherent, hp] at hok
  rw [Producer.toStore, hp]
  exact hok

theorem toLoad_of_done (h : (program prm wr rd).Reachable s) {c : Fin prm.numConsumers}
    (hc : (s.cons c).pc = .done) : (s.cons c).toLoad = 0 := by
  have hok := (accounts h).consOk c
  rw [Consumer.Coherent, hc] at hok
  rw [Consumer.toLoad, hc]
  exact hok

/-- With all producers done, everything has been stored. -/
theorem length_stores_of_done (h : (program prm wr rd).Reachable s)
    (hp : ∀ p, (s.prod p).pc = .done) :
    (stores s.trace).length = ∑ p, (prm.values p).length := by
  have := (accounts h).total_stores
  rwa [Finset.sum_eq_zero fun p _ => by rw [toStore_of_done h (hp p)]; rfl, add_zero] at this

/-- With all consumers done, everything has been loaded. -/
theorem length_loads_of_done (h : (program prm wr rd).Reachable s)
    (hc : ∀ c, (s.cons c).pc = .done) :
    (loads s.trace).length = ∑ c, prm.numOps c := by
  have := (accounts h).total_loads
  rwa [Finset.sum_eq_zero fun c _ => toLoad_of_done h (hc c), add_zero] at this

/-- **No deadlock**: with equal totals on the two sides, nobody can move only
when all threads have finished. -/
theorem allDone_of_stuck (htotal : ∑ p, (prm.values p).length = ∑ c, prm.numOps c)
    (h : (program prm wr rd).Reachable s) (hstuck : (program prm wr rd).Stuck s) :
    s.AllDone := by
  obtain ⟨hprod, hcons⟩ := waiting_of_stuck h hstuck
  have hidle : s.Idle := ⟨fun p => by
      show (s.prod p).pc.phase = _
      rcases hprod p with hp | ⟨hp, -⟩ <;> rw [hp] <;> rfl, fun c => by
      show (s.cons c).pc.phase = _
      rcases hcons c with hc | ⟨hc, -⟩ <;> rw [hc] <;> rfl⟩
  obtain ⟨hn, he⟩ := tokens_idle h hidle
  have hB := prm.bufferSize_pos
  have hstores := (accounts h).total_stores
  have hloads := (accounts h).total_loads
  -- an empty `e` means a full buffer, so the consumers are all done: too many stores
  have hpos : s.e ≠ 0 := fun hzero => by
    have hdone : ∀ c, (s.cons c).pc = .done := fun c =>
      (hcons c).resolve_right fun hw => by omega
    have := length_loads_of_done h hdone
    omega
  have hpdone : ∀ p, (s.prod p).pc = .done := fun p =>
    (hprod p).resolve_right fun hw => hpos hw.2
  -- everything is stored, so a consumer that waits has nothing to wait for
  have hall := length_stores_of_done h hpdone
  refine ⟨hpdone, fun c => (hcons c).resolve_right fun ⟨hc, hzero⟩ => ?_⟩
  have hsum : ∑ d, (s.cons d).toLoad = 0 := by omega
  have hc0 := Finset.sum_eq_zero_iff.mp hsum c (Finset.mem_univ c)
  have hok := (accounts h).consOk c
  rw [Consumer.Coherent, hc] at hok
  rw [Consumer.toLoad, hc] at hc0
  simp only at hok hc0
  omega

/-! ### The end -/

/-- What `main` finds after the joins. -/
structure State.Final (s : State prm μ) : Prop where
  allDone : s.AllDone
  e : s.e = prm.bufferSize
  n : s.n = 0
  mutex : ∀ m, s.mutex m = 1
  readIndex : s.readIndex = (∑ c, prm.numOps c) % prm.bufferSize
  writeIndex : s.writeIndex = (∑ c, prm.numOps c) % prm.bufferSize
  deposit : s.deposit = prm.initialDeposit + ∑ p, (prm.values p).sum

theorem final_of_allDone (htotal : ∑ p, (prm.values p).length = ∑ c, prm.numOps c)
    (h : (program prm wr rd).Reachable s) (hdone : s.AllDone) : s.Final := by
  have hinv := ring_inv h
  obtain ⟨hn, he⟩ := tokens_idle h hdone.idle
  have hW := length_stores_of_done h hdone.1
  have hR := length_loads_of_done h hdone.2
  have heq : loads s.trace = stores s.trace :=
    (loads_prefix_stores h).eq_of_length (by omega)
  have hidx := hinv.indexes
  have hlagP : tally SemRing.Phase.lag s.ring.prod = 0 :=
    tally_eq_zero.mpr fun p => by rw [hdone.idle.1 p]; rfl
  have hlagC : tally SemRing.Phase.lag s.ring.cons = 0 :=
    tally_eq_zero.mpr fun c => by rw [hdone.idle.2 c]; rfl
  refine ⟨hdone, by omega, by omega, ?_, ?_, ?_, ?_⟩
  · exact mutex_free h (fun p => by rw [hdone.idle.1 p]; rfl) fun c => by
      rw [hdone.idle.2 c]; rfl
  · have hr := hidx.read
    rw [hlagC, Nat.add_zero] at hr
    rw [← hR]
    exact (Nat.mod_eq_of_lt hidx.read_lt).symm.trans hr
  · have hw := hidx.write
    rw [hlagP, Nat.add_zero] at hw
    rw [← htotal, ← hW]
    exact (Nat.mod_eq_of_lt hidx.write_lt).symm.trans hw
  · have hbal := balance h
    have hnone : ∀ c, (s.cons c).inFlight = [] := fun c => by
      rw [Consumer.inFlight, hdone.2 c]
    rw [hbal.deposit, ← hbal.settled hnone, heq,
      (accounts h).total_values fun p => toStore_of_done h (hdone.1 p)]

end Stuck

/-- **`producer_consumer_n_m.c` always finishes**: when the operations of the
producers and of the consumers add up to the same number, no run is longer than
the steps left at the start, nobody can move only when all threads have
finished, and then the semaphores, the indexes and the deposit are as they
should be. -/
theorem no_deadlock (prm : Params)
    (htotal : ∑ p, (prm.values p).length = ∑ c, prm.numOps c) :
    (∀ s, (producerConsumerNM prm).Reachable s → (producerConsumerNM prm).Stuck s →
      s.AllDone) ∧
    (∀ ts s, (producerConsumerNM prm).run (mainState prm TwoMutexes 0 prm.bufferSize) ts = some s →
      ts.length ≤ ∑ p, (10 * (prm.values p).length + 1) + ∑ c, (14 * prm.numOps c + 1)) ∧
    (∀ s, (producerConsumerNM prm).Reachable s → (producerConsumerNM prm).Stuck s →
      s.Final) := by
  refine ⟨fun s h hs => allDone_of_stuck htotal h hs, fun ts s hrun => ?_,
    fun s h hs => final_of_allDone htotal h (allDone_of_stuck htotal h hs)⟩
  have := Machine.run_measure (fun s t s' => stepsLeft_step) hrun
  exact Nat.le_of_add_right_le this

/-- The producer runs to its end, then the consumer. -/
theorem no_deadlock_two_by_two :
    ∃ s, (producerConsumerNM twoByTwo).run (mainState twoByTwo TwoMutexes 0 2)
        (List.replicate 21 (.producer 0) ++ List.replicate 28 (.consumer 0)) = some s ∧
      s.AllDone ∧ s.deposit = 1000 + ∑ p, (twoByTwo.values p).sum :=
  have hstuck := fun t => by
    cases t with
    | producer p => match p with | 0 => rfl
    | consumer c => match c with | 0 => rfl
  have h := (no_deadlock twoByTwo (by decide)).2.2 _ (Machine.reachable_iff_run.mpr
    ⟨_, List.replicate 21 (.producer 0) ++ List.replicate 28 (.consumer 0), rfl, rfl⟩) hstuck
  ⟨_, rfl, h.allDone, h.deposit⟩

end ProducerConsumer
