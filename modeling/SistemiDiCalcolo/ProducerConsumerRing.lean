/-
The producer/consumer threads follow the protocol of the semaphore-guarded ring.

`State.ring` reads a state of the program as a state of the ring protocol: `n`
is `filled`, `e` is `empty`, and several program points are one phase.  Every
step of a thread is a step of the protocol or leaves that reading as it is
(`ring_step`), so the invariant of the ring holds in every reachable state
(`ring_inv`).

* `loads_prefix_stores` — the values loaded are a prefix of the values stored;
* `slot_exclusivity` — no two threads are at the same cell.
-/
import SistemiDiCalcolo.ProducerConsumer
import SistemiDiCalcolo.SemRingInv

open Function (update)
open SemRing (Phase)

namespace ProducerConsumer

def ProducerPc.phase : ProducerPc → Phase
  | loop | waitE | next | done => .idle
  | waitMutex => .claimed
  | fetch => .entered
  | store i => .fetched i
  | refetch => .accessed
  | advance i => .refetched i
  | postMutex => .advanced
  | postN => .left

def ConsumerPc.phase : ConsumerPc → Phase
  | loop | waitN | next | done => .idle
  | waitMutex => .claimed
  | fetch => .entered
  | load i => .fetched i
  | loadDeposit _ | storeDeposit _ _ | refetch => .accessed
  | advance i => .refetched i
  | test | report | postMutex => .advanced
  | postE => .left

def Producer.phase (t : Producer) : Phase := t.pc.phase

def Consumer.phase (t : Consumer) : Phase := t.pc.phase

section Ring

variable {prm : Params} {μ : Type}

/-- A state of the program, read as a state of the ring protocol. -/
def State.ring (s : State prm μ) :
    SemRing.State (Fin prm.numProducers) (Fin prm.numConsumers) μ CInt where
  lock := s.mutex
  filled := s.n
  empty := s.e
  writeIndex := s.writeIndex
  readIndex := s.readIndex
  cell := s.transactions
  full := s.full
  prod := Producer.phase ∘ s.prod
  cons := Consumer.phase ∘ s.cons
  trace := s.trace

theorem mainState_ring (prm : Params) (μ : Type) :
    SemRing.Initial prm.bufferSize (mainState prm μ 0 prm.bufferSize).ring :=
  ⟨fun _ => rfl, rfl, rfl, rfl, rfl, fun _ => rfl, rfl, rfl, rfl⟩

variable {wr rd : μ} {s s' : State prm μ}

/-- A move of a producer's program point, read as a move of its phase. -/
theorem phase_update_prod (s : State prm μ) (p : Fin prm.numProducers) (t : Producer) :
    Producer.phase ∘ update s.prod p t = update s.ring.prod p t.phase :=
  Function.comp_update ..

theorem phase_update_cons (s : State prm μ) (c : Fin prm.numConsumers) (t : Consumer) :
    Consumer.phase ∘ update s.cons c t = update s.ring.cons c t.phase :=
  Function.comp_update ..

/-- A producer's move inside one phase is not seen by the protocol. -/
theorem ring_prod_same {p : Fin prm.numProducers} {t : Producer}
    (h : t.phase = (s.prod p).phase) :
    State.ring { s with prod := update s.prod p t } = s.ring := by
  simp only [State.ring, phase_update_prod, h]
  exact s.ring.update_prod_self p

theorem ring_cons_same {c : Fin prm.numConsumers} {t : Consumer}
    (h : t.phase = (s.cons c).phase) :
    State.ring { s with cons := update s.cons c t } = s.ring := by
  simp only [State.ring, phase_update_cons, h]
  exact s.ring.update_cons_self c

variable [DecidableEq μ]

/-- The protocol's step relation between the readings of two states. -/
abbrev RingStep (wr rd : μ) (s s' : State prm μ) : Prop :=
  SemRing.Step prm.bufferSize wr rd s.ring s'.ring

/-- A producer's step is a step of the protocol, or is not seen by it. -/
theorem performTransactions_ring {p : Fin prm.numProducers}
    (h : performTransactions wr s p = some s') : s'.ring = s.ring ∨ RingStep wr rd s s' := by
  have hphase : s.ring.prod p = (s.prod p).pc.phase := rfl
  cases producer_step h with
  | ended hpc _ | produce v rest hpc _ | next hpc =>
    exact .inl (ring_prod_same (by simp only [Producer.phase, hpc]; rfl))
  | waitE hpc hpos =>
    rw [hpc] at hphase
    exact .inr (.of_eq (.claimEmpty p hphase hpos)
      (by simp only [State.ring, phase_update_prod]; rfl))
  | waitMutex hpc hpos =>
    rw [hpc] at hphase
    exact .inr (.of_eq (.lockWrite p hphase hpos)
      (by simp only [State.ring, phase_update_prod]; rfl))
  | fetch hpc =>
    rw [hpc] at hphase
    exact .inr (.of_eq (.fetchWrite p hphase) (by simp only [State.ring, phase_update_prod]; rfl))
  | store i hpc =>
    rw [hpc] at hphase
    exact .inr (.of_eq (.store p i _ hphase) (by simp only [State.ring, phase_update_prod]; rfl))
  | refetch hpc =>
    rw [hpc] at hphase
    exact .inr (.of_eq (.refetchWrite p hphase) (by simp only [State.ring, phase_update_prod]; rfl))
  | advance i hpc =>
    rw [hpc] at hphase
    exact .inr (.of_eq (.advanceWrite p i hphase)
      (by simp only [State.ring, phase_update_prod]; rfl))
  | postMutex hpc =>
    rw [hpc] at hphase
    exact .inr (.of_eq (.unlockWrite p hphase) (by simp only [State.ring, phase_update_prod]; rfl))
  | postN hpc =>
    rw [hpc] at hphase
    exact .inr (.of_eq (.giveFilled p hphase) (by simp only [State.ring, phase_update_prod]; rfl))

/-- A consumer's step is a step of the protocol, or is not seen by it. -/
theorem processTransactions_ring {c : Fin prm.numConsumers}
    (h : processTransactions rd s c = some s') : s'.ring = s.ring ∨ RingStep wr rd s s' := by
  have hphase : s.ring.cons c = (s.cons c).pc.phase := rfl
  cases consumer_step h with
  | ended hpc _ | round hpc _ | loadDeposit v hpc | storeDeposit v d hpc | due hpc _ | notDue hpc _
  | report hpc | next hpc =>
    -- the deposit, the report and the ends of the round belong to no phase of their own
    exact .inl (ring_cons_same (s := s) (by simp only [Consumer.phase, hpc]; rfl))
  | waitN hpc hpos =>
    rw [hpc] at hphase
    exact .inr (.of_eq (.claimFilled c hphase hpos)
      (by simp only [State.ring, phase_update_cons]; rfl))
  | waitMutex hpc hpos =>
    rw [hpc] at hphase
    exact .inr (.of_eq (.lockRead c hphase hpos)
      (by simp only [State.ring, phase_update_cons]; rfl))
  | fetch hpc =>
    rw [hpc] at hphase
    exact .inr (.of_eq (.fetchRead c hphase) (by simp only [State.ring, phase_update_cons]; rfl))
  | load i hpc =>
    rw [hpc] at hphase
    exact .inr (.of_eq (.load c i hphase) (by simp only [State.ring, phase_update_cons]; rfl))
  | refetch hpc =>
    rw [hpc] at hphase
    exact .inr (.of_eq (.refetchRead c hphase) (by simp only [State.ring, phase_update_cons]; rfl))
  | advance i hpc =>
    rw [hpc] at hphase
    exact .inr (.of_eq (.advanceRead c i hphase)
      (by simp only [State.ring, phase_update_cons]; rfl))
  | postMutex hpc =>
    rw [hpc] at hphase
    exact .inr (.of_eq (.unlockRead c hphase) (by simp only [State.ring, phase_update_cons]; rfl))
  | postE hpc =>
    rw [hpc] at hphase
    exact .inr (.of_eq (.giveEmpty c hphase) (by simp only [State.ring, phase_update_cons]; rfl))

theorem ring_step {t : Thread prm} (h : threadStep wr rd s t = some s') :
    s'.ring = s.ring ∨ RingStep wr rd s s' := by
  cases t with
  | producer p => exact performTransactions_ring h
  | consumer c => exact processTransactions_ring h

/-- **The ring's invariant holds in every reachable state**, whether the two
sides share their mutex or not. -/
theorem ring_inv (h : (program prm wr rd).Reachable s) :
    SemRing.Inv prm.bufferSize wr rd s.ring := by
  refine h.refine (f := State.ring) (R := SemRing.Step prm.bufferSize wr rd) ?_
    (fun _ _ _ _ => ring_step) fun _ _ hs hstep => hs.step prm.bufferSize_pos hstep
  rintro s rfl
  exact (mainState_ring prm μ).inv prm.bufferSize_pos

/-- The values loaded are a prefix of the values stored. -/
theorem loads_prefix_stores (h : (program prm wr rd).Reachable s) :
    loads s.trace <+: stores s.trace :=
  (ring_inv h).contents.fifo.loads_prefix_stores

end Ring

/-! ### The sections -/

/-- The producer is between `sem_wait` and `sem_post` of its side's mutex. -/
def Producer.InSection (t : Producer) : Prop :=
  match t.pc with
  | .fetch | .store _ | .refetch | .advance _ | .postMutex => True
  | _ => False

/-- ... and has not yet updated `write_index`. -/
def Producer.BeforeUpdate (t : Producer) : Prop :=
  match t.pc with
  | .fetch | .store _ | .refetch | .advance _ => True
  | _ => False

def Consumer.InSection (t : Consumer) : Prop :=
  match t.pc with
  | .fetch | .load _ | .loadDeposit _ | .storeDeposit _ _ | .refetch | .advance _ | .test
  | .report | .postMutex => True
  | _ => False

def Consumer.BeforeUpdate (t : Consumer) : Prop :=
  match t.pc with
  | .fetch | .load _ | .loadDeposit _ | .storeDeposit _ _ | .refetch | .advance _ => True
  | _ => False

section Exclusion

variable {prm : Params} {μ : Type} {s : State prm μ} {p : Fin prm.numProducers}
  {c : Fin prm.numConsumers}

theorem Producer.InSection.inside (h : (s.prod p).InSection) : (s.ring.prod p).inside = 1 := by
  show (s.prod p).pc.phase.inside = 1
  revert h
  unfold InSection
  cases (s.prod p).pc <;> simp [ProducerPc.phase]

theorem Producer.BeforeUpdate.working (h : (s.prod p).BeforeUpdate) :
    (s.ring.prod p).Working := by
  show (s.prod p).pc.phase.Working
  revert h
  unfold BeforeUpdate
  cases (s.prod p).pc <;> simp [ProducerPc.phase, Phase.Working]

theorem Consumer.InSection.inside (h : (s.cons c).InSection) : (s.ring.cons c).inside = 1 := by
  show (s.cons c).pc.phase.inside = 1
  revert h
  unfold InSection
  cases (s.cons c).pc <;> simp [ConsumerPc.phase]

theorem Consumer.BeforeUpdate.working (h : (s.cons c).BeforeUpdate) :
    (s.ring.cons c).Working := by
  show (s.cons c).pc.phase.Working
  revert h
  unfold BeforeUpdate
  cases (s.cons c).pc <;> simp [ConsumerPc.phase, Phase.Working]

theorem phase_of_store {i : ℕ} (hp : (s.prod p).pc = .store i) :
    s.ring.prod p = .fetched i := by
  show (s.prod p).pc.phase = _
  rw [hp]
  rfl

theorem phase_of_load {i : ℕ} (hc : (s.cons c).pc = .load i) : s.ring.cons c = .fetched i := by
  show (s.cons c).pc.phase = _
  rw [hc]
  rfl

variable [DecidableEq μ] {wr rd : μ}

theorem producer_unique (h : (program prm wr rd).Reachable s) {q : Fin prm.numProducers}
    (hp : (s.prod p).InSection) (hq : (s.prod q).InSection) : p = q :=
  (ring_inv h).ledger.prod_unique hp.inside hq.inside

theorem consumer_unique (h : (program prm wr rd).Reachable s) {d : Fin prm.numConsumers}
    (hc : (s.cons c).InSection) (hd : (s.cons d).InSection) : c = d :=
  (ring_inv h).ledger.cons_unique hc.inside hd.inside

end Exclusion

/-- **Slot exclusivity** in `producer_consumer_n_m.c`: while a producer and a
consumer are both in their sections and have not updated their indexes, the two
indexes differ; each side has at most one thread in its section; hence no
producer and consumer are ever about to access the same cell. -/
theorem slot_exclusivity {prm : Params} {s : State prm TwoMutexes}
    (h : (producerConsumerNM prm).Reachable s) :
    (∀ p c, (s.prod p).BeforeUpdate → (s.cons c).BeforeUpdate → s.writeIndex ≠ s.readIndex) ∧
    (∀ p q, (s.prod p).InSection → (s.prod q).InSection → p = q) ∧
    (∀ c d, (s.cons c).InSection → (s.cons d).InSection → c = d) ∧
    (∀ p c i j, (s.prod p).pc = .store i → (s.cons c).pc = .load j → i ≠ j) := by
  have hinv := ring_inv h
  refine ⟨fun p c hp hc => ?_, fun p q => producer_unique h, fun c d => consumer_unique h,
    fun p c i j hp hc => ?_⟩
  · exact hinv.indexes_ne hp.working hc.working
  · rw [hinv.indexes.prodReg p i (.inl (phase_of_store hp)),
      hinv.indexes.consReg c j (.inl (phase_of_load hc))]
    have hp' : (s.prod p).BeforeUpdate := by rw [Producer.BeforeUpdate, hp]; trivial
    have hc' : (s.cons c).BeforeUpdate := by rw [Consumer.BeforeUpdate, hc]; trivial
    exact hinv.indexes_ne hp'.working hc'.working

/-- Two operations on each side and a buffer of two cells. -/
abbrev twoByTwo : Params where
  numProducers := 1
  numConsumers := 1
  bufferSize := 2
  bufferSize_pos := Nat.two_pos
  initialDeposit := 1000
  values _ := [5, 6]
  numOps _ := 2

/-- The producer stores 5 and enters again while the consumer enters. -/
theorem slot_exclusivity_two_by_two :
    ∃ s, (producerConsumerNM twoByTwo).run (mainState twoByTwo TwoMutexes 0 2)
        (List.replicate 13 (.producer 0) ++ List.replicate 4 (.consumer 0)) = some s ∧
      (s.prod 0).BeforeUpdate ∧ (s.cons 0).BeforeUpdate ∧ s.writeIndex ≠ s.readIndex :=
  ⟨_, rfl, trivial, trivial, (slot_exclusivity (Machine.reachable_iff_run.mpr
    ⟨_, List.replicate 13 (.producer 0) ++ List.replicate 4 (.consumer 0), rfl, rfl⟩)).1 0 0
      trivial trivial⟩

end ProducerConsumer
