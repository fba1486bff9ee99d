/-
The producer/consumer programs with any numbers of operations.

The directive at the head of each program asks for as many operations on one side as on the other.
Without it the threads of the two sides would still run, and what they would come to is a matter of
the totals alone: the producers can get ahead by the cells of the buffer, and the consumers not at
all.

* `stored_of_stuck`, `loaded_of_stuck` — how many values have gone in and out when nobody can move;
* `ends_iff_totals` — all threads finish, in every interleaving, if and only if the consumers have
  at most as many operations as the producers, and these at most `BUFFER_SIZE` more.
-/
import SistemiDiCalcolo.ProducerConsumerEnd

open Function (update)

namespace ProducerConsumer

variable {prm : Params} {μ : Type} {s : State prm μ} [DecidableEq μ] {wr rd : μ}

/-- The operations of all producers, and of all consumers. -/
def Params.toProduce (prm : Params) : ℕ := ∑ p, (prm.values p).length

def Params.toConsume (prm : Params) : ℕ := ∑ c, prm.numOps c

/-- A producer that waits has a value to store. -/
theorem stored_lt (h : (program prm wr rd).Reachable s) {p : Fin prm.numProducers}
    (hp : (s.prod p).pc = .waitE) : (stores s.trace).length < prm.toProduce := by
  have hok := (accounts h).prodOk p
  rw [Producer.Coherent, hp] at hok
  have hne : (s.prod p).toStore ≠ [] := by
    rw [Producer.toStore, hp]
    rintro hnil
    simp only at hok hnil
    rw [hnil] at hok
    cases hok
  have hle := le_tally (fun t : Producer => t.toStore.length) s.prod p
  have htotal := (accounts h).total_stores
  have hpos := List.length_pos_iff.mpr hne
  rw [Params.toProduce, ← htotal]
  exact Nat.lt_add_of_pos_right (hpos.trans_le hle)

/-- A consumer that waits has a value to load. -/
theorem loaded_lt (h : (program prm wr rd).Reachable s) {c : Fin prm.numConsumers}
    (hc : (s.cons c).pc = .waitN) : (loads s.trace).length < prm.toConsume := by
  have hok := (accounts h).consOk c
  rw [Consumer.Coherent, hc] at hok
  have hpos : 0 < (s.cons c).toLoad := by
    rw [Consumer.toLoad, hc]
    exact hok
  have hle := le_tally Consumer.toLoad s.cons c
  have htotal := (accounts h).total_loads
  rw [Params.toConsume, ← htotal]
  exact Nat.lt_add_of_pos_right (hpos.trans_le hle)

/-- Where nobody can move, every thread is before a round or has finished. -/
theorem idle_of_stuck (h : (program prm wr rd).Reachable s)
    (hstuck : (program prm wr rd).Stuck s) : s.Idle := by
  obtain ⟨hprod, hcons⟩ := waiting_of_stuck h hstuck
  refine ⟨fun p => ?_, fun c => ?_⟩
  · show (s.prod p).pc.phase = _
    rcases hprod p with hp | ⟨hp, -⟩ <;> rw [hp] <;> rfl
  · show (s.cons c).pc.phase = _
    rcases hcons c with hc | ⟨hc, -⟩ <;> rw [hc] <;> rfl

/-- The producers have stored everything, or the buffer is full. -/
theorem stored_of_stuck (h : (program prm wr rd).Reachable s)
    (hstuck : (program prm wr rd).Stuck s) :
    (∀ p, (s.prod p).pc = .done) ∧ (stores s.trace).length = prm.toProduce ∨
      (∃ p, (s.prod p).pc ≠ .done) ∧ (stores s.trace).length < prm.toProduce ∧
        (stores s.trace).length = prm.bufferSize + (loads s.trace).length := by
  by_cases hall : ∀ p, (s.prod p).pc = .done
  · exact .inl ⟨hall, length_stores_of_done h hall⟩
  · obtain ⟨p, hp⟩ := not_forall.mp hall
    obtain ⟨hwaits, hzero⟩ := ((waiting_of_stuck h hstuck).1 p).resolve_left hp
    have htokens := (tokens_idle h (idle_of_stuck h hstuck)).2
    rw [hzero, Nat.zero_add] at htokens
    exact .inr ⟨⟨p, hp⟩, stored_lt h hwaits, htokens⟩

/-- The consumers have loaded everything they are to load, or the buffer is empty. -/
theorem loaded_of_stuck (h : (program prm wr rd).Reachable s)
    (hstuck : (program prm wr rd).Stuck s) :
    (∀ c, (s.cons c).pc = .done) ∧ (loads s.trace).length = prm.toConsume ∨
      (∃ c, (s.cons c).pc ≠ .done) ∧ (loads s.trace).length < prm.toConsume ∧
        (loads s.trace).length = (stores s.trace).length := by
  by_cases hall : ∀ c, (s.cons c).pc = .done
  · exact .inl ⟨hall, length_loads_of_done h hall⟩
  · obtain ⟨c, hc⟩ := not_forall.mp hall
    obtain ⟨hwaits, hzero⟩ := ((waiting_of_stuck h hstuck).2 c).resolve_left hc
    have htokens := (tokens_idle h (idle_of_stuck h hstuck)).1
    rw [hzero, Nat.zero_add] at htokens
    exact .inr ⟨⟨c, hc⟩, loaded_lt h hwaits, htokens⟩

/-- No more is loaded than has been stored. -/
theorem loaded_le_stored (h : (program prm wr rd).Reachable s) :
    (loads s.trace).length ≤ (stores s.trace).length :=
  (loads_prefix_stores h).length_le

/-- The account once nobody is in a section. -/
theorem deposit_of_stuck (h : (program prm wr rd).Reachable s)
    (hstuck : (program prm wr rd).Stuck s) :
    s.deposit = prm.initialDeposit + ((stores s.trace).take (loads s.trace).length).sum := by
  have hbal := balance h
  have hnone : ∀ c, (s.cons c).inFlight = [] := fun c => by
    rcases (waiting_of_stuck h hstuck).2 c with hc | ⟨hc, -⟩ <;> rw [Consumer.inFlight, hc]
  rw [hbal.deposit, ← hbal.settled hnone, ← List.prefix_iff_eq_take.mp (loads_prefix_stores h)]

/-- **What the totals decide**, for one mutex or two: in every interleaving no more steps are
possible than the operations ask for, and where nobody can move the producers have stored all
their values or `BUFFER_SIZE` more than the consumers were to load, whichever is less, the
consumers have loaded what they were to load or all there is, and `deposit` has been changed by
just these.  All threads have finished if and only if the consumers' operations are at most the
producers' and these at most `BUFFER_SIZE` more. -/
theorem ends_iff_totals (prm : Params) (wr rd : μ) :
    (∀ ts s, (program prm wr rd).run (mainState prm μ 0 prm.bufferSize) ts = some s →
      ts.length ≤ ∑ p, (10 * (prm.values p).length + 1) + ∑ c, (14 * prm.numOps c + 1)) ∧
    ∀ s, (program prm wr rd).Reachable s → (program prm wr rd).Stuck s →
      (stores s.trace).length = min prm.toProduce (prm.toConsume + prm.bufferSize) ∧
      (loads s.trace).length = min prm.toProduce prm.toConsume ∧
      loads s.trace = (stores s.trace).take (loads s.trace).length ∧
      s.deposit = prm.initialDeposit + (loads s.trace).sum ∧
      ((∀ p, (s.prod p).pc = .done) ↔ prm.toProduce ≤ prm.toConsume + prm.bufferSize) ∧
      ((∀ c, (s.cons c).pc = .done) ↔ prm.toConsume ≤ prm.toProduce) := by
  refine ⟨fun ts s hrun => ?_, fun s h hstuck => ?_⟩
  · have hmeasure := Machine.run_measure (fun s t s' => stepsLeft_step) hrun
    exact Nat.le_of_add_right_le hmeasure
  · have hprefix := List.prefix_iff_eq_take.mp (loads_prefix_stores h)
    have hdeposit := deposit_of_stuck h hstuck
    rw [← hprefix] at hdeposit
    have hle := loaded_le_stored h
    have htokens := (tokens_idle h (idle_of_stuck h hstuck)).2
    have hB := prm.bufferSize_pos
    -- either the producers are over or one waits for a cell; so the consumers, for a value
    rcases stored_of_stuck h hstuck with ⟨hprod, hstored⟩ | ⟨⟨p, hp⟩, hlt, hfull⟩ <;>
      rcases loaded_of_stuck h hstuck with ⟨hcons, hloaded⟩ | ⟨⟨c, hc⟩, hlt', hempty⟩
    · exact ⟨by omega, by omega, hprefix, hdeposit, iff_of_true hprod (by omega),
        iff_of_true hcons (by omega)⟩
    · exact ⟨by omega, by omega, hprefix, hdeposit, iff_of_true hprod (by omega),
        iff_of_false (fun hall => hc (hall c)) (by omega)⟩
    · exact ⟨by omega, by omega, hprefix, hdeposit,
        iff_of_false (fun hall => hp (hall p)) (by omega), iff_of_true hcons (by omega)⟩
    · -- the buffer cannot be full and empty
      omega

/-- Three operations against one, and a buffer of one cell. -/
abbrev threeToOne : Params where
  numProducers := 1
  numConsumers := 1
  bufferSize := 1
  bufferSize_pos := Nat.one_pos
  initialDeposit := 1000
  values _ := [5, 6, 7]
  numOps _ := 1

/-- The producer gets one value ahead of the consumer and waits for ever. -/
theorem ends_iff_totals_three_to_one :
    ∃ s, (program threeToOne OneMutex.s OneMutex.s).run (mainState threeToOne OneMutex 0 1)
        (List.replicate 11 (.producer 0) ++ List.replicate 15 (.consumer 0) ++
          List.replicate 10 (.producer 0)) = some s ∧
      (stores s.trace).length = 2 ∧ s.deposit = 1000 + (loads s.trace).sum ∧
      ¬ ∀ p, (s.prod p).pc = .done := by
  obtain ⟨hstored, -, -, hdeposit, hprod, -⟩ := (ends_iff_totals threeToOne OneMutex.s
    OneMutex.s).2 _ (Machine.reachable_iff_run.mpr
    ⟨_, List.replicate 11 (.producer 0) ++ List.replicate 15 (.consumer 0) ++
      List.replicate 10 (.producer 0), rfl, rfl⟩) fun t => by
    cases t with
    | producer p => match p with | 0 => rfl
    | consumer c => match c with | 0 => rfl
  exact ⟨_, rfl, hstored, hdeposit, fun hall => absurd (hprod.mp hall) (by decide)⟩

end ProducerConsumer
