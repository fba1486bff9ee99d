/-
The account of the producer/consumer programs.

`deposit += transactions[read_index]` is a load of the transaction, a load of
the deposit and a store.  Since only the consumer in the section is between
them, no update is lost: the deposit is the initial one plus the values added
(`Balance`), and these are the values loaded, but for the one in flight.

* `performTransactions_frame` — a producer touches nothing on the consumers'
  side;
* `balance` — the account is right in every reachable state;
* `fifo_and_deposit` — the values come out in the order in which they went in,
  each once, and the deposit adds them up.
-/
import SistemiDiCalcolo.ProducerConsumerRing

open Function (update)

namespace ProducerConsumer

/-- The transaction a consumer has loaded and not yet added. -/
def Consumer.inFlight (t : Consumer) : List CInt :=
  match t.pc with
  | .loadDeposit v | .storeDeposit v _ => [v]
  | _ => []

/-- The consumer is between the load of the transaction and the store of
`deposit +=`. -/
def Consumer.Adding (t : Consumer) : Prop :=
  match t.pc with
  | .loadDeposit _ | .storeDeposit _ _ => True
  | _ => False

theorem Consumer.inFlight_eq_nil {t : Consumer} : t.inFlight = [] ↔ ¬ t.Adding := by
  unfold inFlight Adding
  cases t.pc <;> simp

theorem Consumer.Adding.inSection {t : Consumer} (h : t.Adding) : t.InSection := by
  revert h
  unfold Adding InSection
  cases t.pc <;> simp

section Balance

variable {prm : Params} {μ : Type} {s s' : State prm μ}

/-- The deposit is the initial one plus the values added; a register holds the
deposit it was loaded from; the values added are the ones loaded, but for the
one in flight. -/
structure Balance (s : State prm μ) : Prop where
  deposit : s.deposit = prm.initialDeposit + s.added.sum
  reg : ∀ c v d, (s.cons c).pc = .storeDeposit v d → d = s.deposit
  settled : (∀ c, (s.cons c).inFlight = []) → loads s.trace = s.added
  pending : ∀ c v, (s.cons c).inFlight = [v] → loads s.trace = s.added ++ [v]

theorem mainState_balance (n e : ℕ) : Balance (mainState prm μ n e) where
  deposit := by simp [mainState]
  reg c v d h := by simp [mainState] at h
  settled _ := rfl
  pending c v h := by simp [mainState, Consumer.inFlight] at h

/-- Moves that leave the account and what is in flight alone. -/
theorem Balance.congr (hs : Balance s) (hdeposit : s'.deposit = s.deposit)
    (hadded : s'.added = s.added) (hloads : loads s'.trace = loads s.trace)
    (hflight : ∀ c, (s'.cons c).inFlight = (s.cons c).inFlight)
    (hreg : ∀ c v d, (s'.cons c).pc = .storeDeposit v d →
      (s.cons c).pc = .storeDeposit v d ∨ d = s.deposit) : Balance s' where
  deposit := by rw [hdeposit, hadded, hs.deposit]
  reg c v d h := by
    rw [hdeposit]
    exact (hreg c v d h).elim (hs.reg c v d) id
  settled h := by
    rw [hloads, hadded]
    exact hs.settled fun c => by rw [← hflight, h c]
  pending c v h := by
    rw [hloads, hadded]
    exact hs.pending c v (by rw [← hflight, h])

/-- A consumer's move that neither loads a transaction nor stores the deposit. -/
theorem Balance.move (hs : Balance s) {c : Fin prm.numConsumers} {t : Consumer}
    (hcons : s'.cons = update s.cons c t) (hdeposit : s'.deposit = s.deposit)
    (hadded : s'.added = s.added) (htrace : s'.trace = s.trace)
    (hflight : t.inFlight = (s.cons c).inFlight)
    (hreg : ∀ v d, t.pc = .storeDeposit v d → d = s.deposit) : Balance s' := by
  refine hs.congr hdeposit hadded (by rw [htrace]) ?_ ?_
  · rw [hcons]
    exact (Function.forall_update_iff s.cons fun d u => u.inFlight = (s.cons d).inFlight).mpr
      ⟨hflight, fun d _ => rfl⟩
  · intro d v x h
    rw [hcons] at h
    by_cases hd : d = c
    · rw [hd, Function.update_self] at h
      exact .inr (hreg v x h)
    · rw [Function.update_of_ne hd] at h
      exact .inl h

variable [DecidableEq μ] {wr rd : μ}

/-- A producer leaves the consumers and the account alone, and loads nothing. -/
theorem performTransactions_frame {p : Fin prm.numProducers}
    (h : performTransactions wr s p = some s') :
    s'.cons = s.cons ∧ s'.deposit = s.deposit ∧ s'.added = s.added ∧
      loads s'.trace = loads s.trace := by
  cases producer_step h with
  | store i _ => exact ⟨rfl, rfl, rfl, loads_append_store ..⟩
  | ended | produce | waitE | waitMutex | fetch | refetch | advance | postMutex | postN | next =>
    exact ⟨rfl, rfl, rfl, rfl⟩

/-- In a reachable state at most one consumer has a transaction in flight. -/
theorem inFlight_of_inSection (h : (program prm wr rd).Reachable s) {c d : Fin prm.numConsumers}
    (hc : (s.cons c).InSection) (hne : d ≠ c) : (s.cons d).inFlight = [] := by
  rw [Consumer.inFlight_eq_nil]
  intro hd
  exact hne (consumer_unique h hd.inSection hc)

/-- The load puts a transaction in flight. -/
theorem Balance.load (h : (program prm wr rd).Reachable s) (hs : Balance s)
    {c : Fin prm.numConsumers} {i : ℕ} (hpc : (s.cons c).pc = .load i) :
    Balance { s with
      full := update s.full i false
      cons := update s.cons c { s.cons c with pc := .loadDeposit (s.transactions i) }
      trace := s.trace ++ [.load c (s.transactions i)] } := by
  have hin : (s.cons c).InSection := by rw [Consumer.InSection, hpc]; trivial
  have hnone : ∀ d, (s.cons d).inFlight = [] := by
    intro d
    by_cases hd : d = c
    · rw [hd, Consumer.inFlight, hpc]
    · exact inFlight_of_inSection h hin hd
  refine ⟨hs.deposit, fun d v x hd => ?_, fun hall => ?_, fun d v hd => ?_⟩ <;> dsimp only at *
  · by_cases hdc : d = c
    · rw [hdc, Function.update_self] at hd
      simp at hd
    · rw [Function.update_of_ne hdc] at hd
      exact hs.reg d v x hd
  · have := hall c
    rw [Function.update_self] at this
    simp [Consumer.inFlight] at this
  · by_cases hdc : d = c
    · rw [hdc, Function.update_self] at hd
      obtain rfl : s.transactions i = v := by simpa [Consumer.inFlight] using hd
      rw [loads_append_load, hs.settled hnone]
    · rw [Function.update_of_ne hdc, hnone d] at hd
      simp at hd

/-- The store of the deposit adds the transaction in flight. -/
theorem Balance.store (h : (program prm wr rd).Reachable s) (hs : Balance s)
    {c : Fin prm.numConsumers} {v x : CInt} (hpc : (s.cons c).pc = .storeDeposit v x) :
    Balance { s with
      deposit := x + v
      cons := update s.cons c { s.cons c with pc := .refetch }
      added := s.added ++ [v] } := by
  have hin : (s.cons c).InSection := by rw [Consumer.InSection, hpc]; trivial
  have hfl : (s.cons c).inFlight = [v] := by rw [Consumer.inFlight, hpc]
  have hothers : ∀ d, d ≠ c → (s.cons d).inFlight = [] := fun d => inFlight_of_inSection h hin
  refine ⟨?_, fun d w y hd => ?_, fun _ => ?_, fun d w hd => ?_⟩ <;> dsimp only at *
  · rw [hs.reg c v x hpc, hs.deposit, List.sum_append, List.sum_singleton, add_assoc]
  · by_cases hdc : d = c
    · rw [hdc, Function.update_self] at hd
      simp at hd
    · rw [Function.update_of_ne hdc] at hd
      have := hothers d hdc
      rw [Consumer.inFlight, hd] at this
      simp at this
  · exact hs.pending c v hfl
  · by_cases hdc : d = c
    · rw [hdc, Function.update_self] at hd
      simp [Consumer.inFlight] at hd
    · rw [Function.update_of_ne hdc, hothers d hdc] at hd
      simp at hd

theorem processTransactions_balance (h : (program prm wr rd).Reachable s) (hs : Balance s)
    {c : Fin prm.numConsumers} (hstep : processTransactions rd s c = some s') : Balance s' := by
  cases consumer_step hstep with
  | load i hpc => exact hs.load h hpc
  | storeDeposit v x hpc => exact hs.store h hpc
  | loadDeposit v hpc =>
    refine hs.move rfl rfl rfl rfl ?_ ?_
    · simp only [Consumer.inFlight, hpc]
    · rintro w x heq
      cases heq
      rfl
  | ended hpc _ | round hpc _ | waitN hpc _ | waitMutex hpc _ | fetch hpc | refetch hpc
  | advance i hpc | due hpc _ | notDue hpc _ | report hpc | postMutex hpc | postE hpc | next hpc =>
    -- the other points load no transaction and store no deposit
    exact hs.move rfl rfl rfl rfl (by simp only [Consumer.inFlight, hpc]) (by simp)

/-- The account is right in every reachable state. -/
theorem balance (h : (program prm wr rd).Reachable s) : Balance s := by
  refine h.invariant (I := Balance) ?_ ?_
  · rintro s rfl
    exact mainState_balance ..
  · intro s t s' hr hs hstep
    cases t with
    | producer p =>
      obtain ⟨hcons, hdeposit, hadded, hloads⟩ := performTransactions_frame hstep
      exact hs.congr hdeposit hadded hloads (fun c => by rw [hcons])
        (fun c v d hc => .inl (by rw [← hcons, hc]))
    | consumer c => exact processTransactions_balance hr hs hstep

end Balance

/-- **First in, first out, and no update lost** in `producer_consumer_n_m.c`: the
values loaded from `transactions[]` are a prefix of the values stored to it; a
cell about to be loaded holds a value not yet consumed, and a cell about to be
stored to does not; the deposit is the initial one plus the values added, which
are all the values loaded whenever no consumer is in the middle of
`deposit +=`. -/
theorem fifo_and_deposit {prm : Params} {s : State prm TwoMutexes}
    (h : (producerConsumerNM prm).Reachable s) :
    loads s.trace <+: stores s.trace ∧
    (∀ c i, (s.cons c).pc = .load i → s.full i = true) ∧
    (∀ p i, (s.prod p).pc = .store i → s.full i = false) ∧
    s.deposit = prm.initialDeposit + s.added.sum ∧
    s.added <+: loads s.trace ∧
    ((∀ c, ¬ (s.cons c).Adding) → s.added = loads s.trace) := by
  have hinv := ring_inv h
  have hbal := balance h
  have hsettled : (∀ c, ¬ (s.cons c).Adding) → loads s.trace = s.added := fun hc =>
    hbal.settled fun c => Consumer.inFlight_eq_nil.mpr (hc c)
  refine ⟨loads_prefix_stores h, fun c i hc => hinv.load_full (phase_of_load hc),
    fun p i hp => hinv.store_free (phase_of_store hp), hbal.deposit, ?_,
    fun hc => (hsettled hc).symm⟩
  by_cases hc : ∃ c, (s.cons c).Adding
  · obtain ⟨c, hc⟩ := hc
    obtain ⟨v, hv⟩ : ∃ v, (s.cons c).inFlight = [v] := by
      revert hc
      unfold Consumer.Adding Consumer.inFlight
      cases (s.cons c).pc <;> simp
    rw [hbal.pending c v hv]
    exact List.prefix_append _ _
  · rw [hsettled fun c hadd => hc ⟨c, hadd⟩]

/-- The producer has stored 5 and 6, the consumer is adding 5. -/
theorem fifo_and_deposit_two_by_two :
    ∃ s, (producerConsumerNM twoByTwo).run (mainState twoByTwo TwoMutexes 0 2)
        (List.replicate 16 (.producer 0) ++ List.replicate 7 (.consumer 0)) = some s ∧
      loads s.trace = [5] ∧ stores s.trace = [5, 6] ∧ loads s.trace <+: stores s.trace ∧
      s.deposit = 1000 + s.added.sum :=
  have h := fifo_and_deposit (Machine.reachable_iff_run.mpr
    ⟨_, List.replicate 16 (.producer 0) ++ List.replicate 7 (.consumer 0), rfl, rfl⟩)
  ⟨_, rfl, rfl, rfl, h.1, h.2.2.2.1⟩

end ProducerConsumer
