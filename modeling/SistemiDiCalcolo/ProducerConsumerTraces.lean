/-
The one-mutex and the two-mutex programs have the same traces.

A trace is the sequence of accesses to `transactions[]` in a finite run.  The
traces of the program are the ones of a queue of `BUFFER_SIZE` places in which
each thread does its own operations in order (`traces_eq`), whatever mutexes
the two sides take: a run is such a trace by the ring's invariant, and such a
trace is a run in which every operation is carried out in one go, from a state
where all threads rest at the top of their loop (`store_round`, `load_round`).

* `traces_one_eq_two` — the equivalence of the programs.
-/
import SistemiDiCalcolo.ProducerConsumerEnd

open Function (update)

namespace ProducerConsumer

section Traces

variable {prm : Params} {μ : Type}

/-- The traces of the finite runs of a program. -/
def traces (M : Machine (State prm μ) (Thread prm)) :
    Set (List (Event (Fin prm.numProducers) (Fin prm.numConsumers) CInt)) :=
  {tr | ∃ s, M.Reachable s ∧ s.trace = tr}

/-- The traces of a queue of `BUFFER_SIZE` places used by the given threads. -/
def queueTraces (prm : Params) :
    Set (List (Event (Fin prm.numProducers) (Fin prm.numConsumers) CInt)) :=
  {tr | Fifo prm.bufferSize tr ∧ (∀ p, storesOf p tr <+: prm.values p) ∧
    ∀ c, (loadsOf c tr).length ≤ prm.numOps c}

variable [DecidableEq μ] {wr rd : μ} {s : State prm μ}

/-! ### A run is a trace of the queue -/

theorem trace_mem_queueTraces (h : (program prm wr rd).Reachable s) :
    s.trace ∈ queueTraces prm := by
  refine ⟨(ring_inv h).contents.fifo, fun p => ?_, fun c => ?_⟩
  · rw [← (accounts h).prod p]
    exact List.prefix_append _ _
  · have := (accounts h).cons c
    omega

/-! ### A trace of the queue is a run -/

/-- All threads are at the top of their loop. -/
structure State.Resting (s : State prm μ) : Prop where
  prod : ∀ p, (s.prod p).pc = .loop
  cons : ∀ c, (s.cons c).pc = .loop

omit [DecidableEq μ] in
theorem State.Resting.idle (h : s.Resting) : s.Idle := by
  constructor
  · intro p
    show (s.prod p).pc.phase = _
    rw [h.prod p]
    rfl
  · intro c
    show (s.cons c).pc.phase = _
    rw [h.cons c]
    rfl

theorem resting_mutex (h : (program prm wr rd).Reachable s) (hrest : s.Resting) (m : μ) :
    0 < s.mutex m := by
  rw [mutex_free h (fun p => by rw [hrest.idle.1 p]; rfl) fun c => by rw [hrest.idle.2 c]; rfl]
  exact Nat.one_pos

/-- One whole round of a producer. -/
theorem run_producer_round {p : Fin prm.numProducers} {v x : CInt} {rest : List CInt}
    (hp : s.prod p = ⟨.loop, v :: rest, x⟩) (he : 0 < s.e) (hm : 0 < s.mutex wr) :
    (program prm wr rd).run s (List.replicate 10 (.producer p)) = some
      { s with
        e := s.e - 1
        n := s.n + 1
        mutex := update (update s.mutex wr (s.mutex wr - 1)) wr (s.mutex wr - 1 + 1)
        transactions := update s.transactions s.writeIndex v
        full := update s.full s.writeIndex true
        writeIndex := (s.writeIndex + 1) % prm.bufferSize
        prod := update s.prod p ⟨.loop, rest, v⟩
        trace := s.trace ++ [.store p v] } := by
  simp [List.replicate, Machine.run, program, threadStep, performTransactions, hp, he, hm]

/-- A consumer's round up to the test of `read_index`. -/
theorem run_consumer_load {c : Fin prm.numConsumers} {k : ℕ} (hc : s.cons c = ⟨.loop, k + 1⟩)
    (hn : 0 < s.n) (hm : 0 < s.mutex rd) :
    (program prm wr rd).run s (List.replicate 9 (.consumer c)) = some
      { s with
        n := s.n - 1
        mutex := update s.mutex rd (s.mutex rd - 1)
        full := update s.full s.readIndex false
        deposit := s.deposit + s.transactions s.readIndex
        readIndex := (s.readIndex + 1) % prm.bufferSize
        cons := update s.cons c ⟨.test, k + 1⟩
        trace := s.trace ++ [.load c (s.transactions s.readIndex)]
        added := s.added ++ [s.transactions s.readIndex] } := by
  simp [List.replicate, Machine.run, program, threadStep, processTransactions, hc, hn, hm]

variable (wr rd) in
/-- The rest of the round, with or without a report. -/
theorem run_consumer_leave {c : Fin prm.numConsumers} {k : ℕ} (hc : s.cons c = ⟨.test, k + 1⟩) :
    ∃ ts s', (program prm wr rd).run s ts = some s' ∧ s'.trace = s.trace ∧
      s'.prod = s.prod ∧ s'.cons = update s.cons c ⟨.loop, k⟩ := by
  by_cases hr : s.readIndex % 100 = 0
  · refine ⟨List.replicate 5 (.consumer c),
      { s with
        mutex := update s.mutex rd (s.mutex rd + 1)
        e := s.e + 1
        cons := update s.cons c ⟨.loop, k⟩
        reports := s.reports ++ [((loads s.trace).length, s.deposit)] }, ?_, rfl, rfl, rfl⟩
    simp [List.replicate, Machine.run, program, threadStep, processTransactions, hc, hr]
  · refine ⟨List.replicate 4 (.consumer c),
      { s with
        mutex := update s.mutex rd (s.mutex rd + 1)
        e := s.e + 1
        cons := update s.cons c ⟨.loop, k⟩ }, ?_, rfl, rfl, rfl⟩
    simp [List.replicate, Machine.run, program, threadStep, processTransactions, hc, hr]

/-- From rest, a producer with a value to store and a place to store it in
carries out one operation. -/
theorem store_round (h : (program prm wr rd).Reachable s) (hrest : s.Resting)
    {p : Fin prm.numProducers} {v : CInt} {rest : List CInt} (hops : (s.prod p).ops = v :: rest)
    (hroom : (stores s.trace).length < (loads s.trace).length + prm.bufferSize) :
    ∃ s', (program prm wr rd).Reachable s' ∧ s'.Resting ∧
      s'.trace = s.trace ++ [.store p v] := by
  have hp : s.prod p = ⟨.loop, v :: rest, (s.prod p).currentTransaction⟩ := by
    rw [← hrest.prod p, ← hops]
  have he : 0 < s.e := by
    have := (tokens_idle h hrest.idle).2
    omega
  refine ⟨_, h.run (run_producer_round hp he (resting_mutex h hrest wr)),
    ⟨fun q => ?_, hrest.cons⟩, rfl⟩
  show (update s.prod p ⟨.loop, rest, v⟩ q).pc = .loop
  by_cases hq : q = p
  · rw [hq, Function.update_self]
  · rw [Function.update_of_ne hq, hrest.prod q]

/-- From rest, a consumer with an operation left and a value to load carries out
one operation. -/
theorem load_round (h : (program prm wr rd).Reachable s) (hrest : s.Resting)
    {c : Fin prm.numConsumers} {v : CInt} (hops : 0 < (s.cons c).numOps)
    (hv : (stores s.trace)[(loads s.trace).length]? = some v) :
    ∃ s', (program prm wr rd).Reachable s' ∧ s'.Resting ∧
      s'.trace = s.trace ++ [.load c v] := by
  obtain ⟨k, hk⟩ : ∃ k, (s.cons c).numOps = k + 1 := ⟨(s.cons c).numOps - 1, by omega⟩
  have hc : s.cons c = ⟨.loop, k + 1⟩ := by rw [← hrest.cons c, ← hk]
  have hunread := (List.getElem?_eq_some_iff.mp hv).choose
  have hn : 0 < s.n := by
    have := (tokens_idle h hrest.idle).1
    omega
  -- at rest the read index stands at the oldest unread value
  have hindex : s.transactions s.readIndex = v := by
    have hinv := ring_inv h
    have hr := hinv.indexes.read
    rw [tally_eq_zero.mpr fun d => by rw [hrest.idle.2 d]; rfl, Nat.add_zero] at hr
    have hcell := hinv.contents.cell _ le_rfl hunread
    rw [← hr, Nat.mod_eq_of_lt hinv.indexes.read_lt] at hcell
    exact Option.some_inj.mp (hcell.symm.trans hv)
  obtain ⟨ts, s', hrun, htrace, hprod, hcons⟩ := run_consumer_leave wr rd
    (s := { s with
      n := s.n - 1
      mutex := update s.mutex rd (s.mutex rd - 1)
      full := update s.full s.readIndex false
      deposit := s.deposit + s.transactions s.readIndex
      readIndex := (s.readIndex + 1) % prm.bufferSize
      cons := update s.cons c ⟨.test, k + 1⟩
      trace := s.trace ++ [.load c (s.transactions s.readIndex)]
      added := s.added ++ [s.transactions s.readIndex] }) (c := c) (k := k)
    (Function.update_self ..)
  refine ⟨s', (h.run (run_consumer_load hc hn (resting_mutex h hrest rd))).run hrun,
    ⟨fun p => ?_, fun d => ?_⟩, by rw [htrace, hindex]⟩
  · rw [hprod]
    exact hrest.prod p
  · rw [hcons]
    by_cases hd : d = c
    · rw [hd, Function.update_self]
    · rw [Function.update_of_ne hd]
      simp only
      rw [Function.update_of_ne hd, hrest.cons d]

variable (wr rd) in
/-- Every trace of the queue is the trace of a run that ends at rest. -/
theorem exists_resting_of_mem {tr} (h : tr ∈ queueTraces prm) :
    ∃ s, (program prm wr rd).Reachable s ∧ s.Resting ∧ s.trace = tr := by
  obtain ⟨hfifo, hprod, hcons⟩ := h
  induction hfifo with
  | nil => exact ⟨_, .init rfl, ⟨fun _ => rfl, fun _ => rfl⟩, rfl⟩
  | @store tr p v _ hroom ih =>
    -- the trace before it is that of a run that ends at rest
    obtain ⟨s, hs, hrest, rfl⟩ := ih
      (fun q => by
        have := hprod q
        rw [storesOf_append_store] at this
        exact (List.prefix_append _ _).trans this)
      (fun c => by simpa using hcons c)
    -- the value is the next one that the producer has to store
    have hleft := (accounts hs).prod p
    rw [Producer.toStore, hrest.prod p] at hleft
    simp only at hleft
    have hnext := hprod p
    rw [storesOf_append_store, if_pos rfl, ← hleft, List.prefix_append_right_inj] at hnext
    obtain ⟨rest, hops⟩ := hnext
    exact store_round hs hrest hops.symm hroom
  | @load tr c v _ hv ih =>
    obtain ⟨s, hs, hrest, rfl⟩ := ih (fun p => by simpa using hprod p) (fun d => by
      have := hcons d
      rw [loadsOf_append_load, List.length_append] at this
      omega)
    have hleft := (accounts hs).cons c
    rw [Consumer.toLoad, hrest.cons c] at hleft
    have hmore := hcons c
    rw [loadsOf_append_load, if_pos rfl, List.length_append, List.length_singleton] at hmore
    simp only at hleft
    exact load_round hs hrest (by omega) hv

/-- **The traces of the program are those of the queue.** -/
theorem traces_eq (prm : Params) (wr rd : μ) : traces (program prm wr rd) = queueTraces prm := by
  ext tr
  constructor
  · rintro ⟨s, hs, rfl⟩
    exact trace_mem_queueTraces hs
  · intro h
    obtain ⟨s, hs, -, htr⟩ := exists_resting_of_mem wr rd h
    exact ⟨s, hs, htr⟩

end Traces

/-- **One mutex or two, the traces are the same**: the programs of
`producer_consumer_1_m.c` and `producer_consumer_n_1.c`, with one mutex for
both sides, have the traces of `producer_consumer_n_m.c`. -/
theorem traces_one_eq_two (prm : Params) :
    traces (producerConsumer1M prm) = traces (producerConsumerNM prm) ∧
      traces (producerConsumerN1 prm) = traces (producerConsumerNM prm) :=
  ⟨(traces_eq prm _ _).trans (traces_eq prm _ _).symm,
    (traces_eq prm _ _).trans (traces_eq prm _ _).symm⟩

end ProducerConsumer
