/-
What each thread of the producer/consumer programs has done and has left to do.

* `Accounts` — what a producer has stored, followed by what it has yet to store,
  are its values; what a consumer has loaded and has yet to load adds up to its
  operations;
* `accounts` — these hold in every reachable state;
* `Accounts.total_stores`, `Accounts.total_loads` — the totals over all threads.
-/
import SistemiDiCalcolo.ProducerConsumer

open Function (update)

namespace ProducerConsumer

/-- The values that the producer has yet to store. -/
def Producer.toStore (t : Producer) : List CInt :=
  match t.pc with
  | .refetch | .advance _ | .postMutex | .postN | .next => t.ops.tail
  | _ => t.ops

/-- From the production to the store the current transaction is the next value;
a producer has none left when it is done. -/
def Producer.Coherent (t : Producer) : Prop :=
  match t.pc with
  | .waitE | .waitMutex | .fetch | .store _ => t.ops.head? = some t.currentTransaction
  | .done => t.ops = []
  | _ => True

/-- The number of transactions that the consumer has yet to load. -/
def Consumer.toLoad (t : Consumer) : ℕ :=
  match t.pc with
  | .loop | .waitN | .waitMutex | .fetch | .load _ | .done => t.numOps
  | _ => t.numOps - 1

def Consumer.Coherent (t : Consumer) : Prop :=
  match t.pc with
  | .waitN | .waitMutex | .fetch | .load _ => 0 < t.numOps
  | .done => t.numOps = 0
  | _ => True

section Accounts

variable {prm : Params} {μ : Type} {s s' : State prm μ}

structure Accounts (s : State prm μ) : Prop where
  prod : ∀ p, storesOf p s.trace ++ (s.prod p).toStore = prm.values p
  prodOk : ∀ p, (s.prod p).Coherent
  cons : ∀ c, (loadsOf c s.trace).length + (s.cons c).toLoad = prm.numOps c
  consOk : ∀ c, (s.cons c).Coherent

theorem mainState_accounts (n e : ℕ) : Accounts (mainState prm μ n e) where
  prod p := by simp [mainState, Producer.toStore]
  prodOk p := by simp [mainState, Producer.Coherent]
  cons c := by simp [mainState, Consumer.toLoad]
  consOk c := by simp [mainState, Consumer.Coherent]

/-- A producer's move: its own account and its own coherence are what counts. -/
theorem Accounts.prodMove (hs : Accounts s) {p : Fin prm.numProducers} {t : Producer}
    (hprod : s'.prod = update s.prod p t) (hcons : s'.cons = s.cons)
    (hothers : ∀ q, q ≠ p → storesOf q s'.trace = storesOf q s.trace)
    (hloads : ∀ c, loadsOf c s'.trace = loadsOf c s.trace)
    (hown : storesOf p s'.trace ++ t.toStore = storesOf p s.trace ++ (s.prod p).toStore)
    (hok : t.Coherent) : Accounts s' := by
  refine ⟨?_, ?_, ?_, ?_⟩
  · rw [hprod]
    refine (Function.forall_update_iff s.prod fun q u =>
      storesOf q s'.trace ++ u.toStore = prm.values q).mpr ⟨hown.trans (hs.prod p), ?_⟩
    intro q hq
    rw [hothers q hq, hs.prod]
  · rw [hprod]
    exact (Function.forall_update_iff s.prod fun _ u => u.Coherent).mpr
      ⟨hok, fun q _ => hs.prodOk q⟩
  · intro c
    rw [hcons, hloads, hs.cons]
  · rw [hcons]
    exact hs.consOk

/-- A consumer's move. -/
theorem Accounts.consMove (hs : Accounts s) {c : Fin prm.numConsumers} {t : Consumer}
    (hcons : s'.cons = update s.cons c t) (hprod : s'.prod = s.prod)
    (hothers : ∀ d, d ≠ c → loadsOf d s'.trace = loadsOf d s.trace)
    (hstores : ∀ p, storesOf p s'.trace = storesOf p s.trace)
    (hown : (loadsOf c s'.trace).length + t.toLoad
      = (loadsOf c s.trace).length + (s.cons c).toLoad)
    (hok : t.Coherent) : Accounts s' := by
  refine ⟨?_, ?_, ?_, ?_⟩
  · intro p
    rw [hprod, hstores, hs.prod]
  · rw [hprod]
    exact hs.prodOk
  · rw [hcons]
    refine (Function.forall_update_iff s.cons fun d u =>
      (loadsOf d s'.trace).length + u.toLoad = prm.numOps d).mpr ⟨hown.trans (hs.cons c), ?_⟩
    intro d hd
    rw [hothers d hd, hs.cons]
  · rw [hcons]
    exact (Function.forall_update_iff s.cons fun _ u => u.Coherent).mpr
      ⟨hok, fun d _ => hs.consOk d⟩

theorem Accounts.total_stores (hs : Accounts s) :
    (stores s.trace).length + ∑ p, (s.prod p).toStore.length = ∑ p, (prm.values p).length := by
  rw [length_stores, ← Finset.sum_add_distrib]
  exact Finset.sum_congr rfl fun p _ => by rw [← List.length_append, hs.prod]

theorem Accounts.total_values (hs : Accounts s) (hall : ∀ p, (s.prod p).toStore = []) :
    (stores s.trace).sum = ∑ p, (prm.values p).sum := by
  have h := sum_stores id s.trace
  simp only [List.map_id] at h
  rw [h]
  refine Finset.sum_congr rfl fun p _ => ?_
  rw [← hs.prod p, hall p, List.append_nil]

theorem Accounts.total_loads (hs : Accounts s) :
    (loads s.trace).length + ∑ c, (s.cons c).toLoad = ∑ c, prm.numOps c := by
  rw [length_loads, ← Finset.sum_add_distrib]
  exact Finset.sum_congr rfl fun c _ => hs.cons c

variable [DecidableEq μ] {wr rd : μ}

theorem performTransactions_accounts {p : Fin prm.numProducers} (hs : Accounts s)
    (h : performTransactions wr s p = some s') : Accounts s' := by
  have hok := hs.prodOk p
  rw [Producer.Coherent] at hok
  cases producer_step h with
  | ended hpc hops =>
    refine hs.prodMove (s := s) (p := p) rfl rfl (fun _ _ => rfl) (fun _ => rfl) ?_ hops
    simp only [Producer.toStore, hpc]
  | produce v rest hpc hops =>
    refine hs.prodMove (s := s) (p := p) rfl rfl (fun _ _ => rfl) (fun _ => rfl) ?_ ?_
    · simp only [Producer.toStore, hpc]
    · simp only [Producer.Coherent, hops, List.head?_cons]
  | store i hpc =>
    rw [hpc] at hok
    refine hs.prodMove (p := p) rfl rfl (fun q hq => ?_) (fun c => loadsOf_append_store ..) ?_
      trivial
    · rw [storesOf_append_store, if_neg (Ne.symm hq), List.append_nil]
    · rw [storesOf_append_store, if_pos rfl, List.append_assoc]
      congr 1
      simp only [Producer.toStore, hpc]
      exact List.cons_head?_tail hok
  | waitE hpc _ | waitMutex hpc _ | fetch hpc | refetch hpc | advance i hpc | postMutex hpc
  | postN hpc | next hpc =>
    rw [hpc] at hok
    refine hs.prodMove (s := s) (p := p) rfl rfl (fun _ _ => rfl) (fun _ => rfl) ?_ hok
    simp only [Producer.toStore, hpc]

theorem processTransactions_accounts {c : Fin prm.numConsumers} (hs : Accounts s)
    (h : processTransactions rd s c = some s') : Accounts s' := by
  have hok := hs.consOk c
  rw [Consumer.Coherent] at hok
  cases consumer_step h with
  | ended hpc hops | round hpc hops =>
    refine hs.consMove (s := s) (c := c) rfl rfl (fun _ _ => rfl) (fun _ => rfl) ?_ hops
    simp only [Consumer.toLoad, hpc]
  | load i hpc =>
    rw [hpc] at hok
    refine hs.consMove (c := c) rfl rfl (fun d hd => ?_) (fun p => storesOf_append_load ..) ?_
      trivial
    · rw [loadsOf_append_load, if_neg (Ne.symm hd), List.append_nil]
    · rw [loadsOf_append_load, if_pos rfl, List.length_append, List.length_singleton]
      simp only [Consumer.toLoad, hpc]
      have hpos : 0 < (s.cons c).numOps := hok
      omega
  | waitN hpc _ | waitMutex hpc _ | fetch hpc | loadDeposit v hpc | storeDeposit v d hpc
  | refetch hpc | advance i hpc | due hpc _ | notDue hpc _ | report hpc | postMutex hpc
  | postE hpc | next hpc =>
    rw [hpc] at hok
    refine hs.consMove (s := s) (c := c) rfl rfl (fun _ _ => rfl) (fun _ => rfl) ?_ hok
    simp only [Consumer.toLoad, hpc]

/-- The accounts are right in every reachable state. -/
theorem accounts (h : (program prm wr rd).Reachable s) : Accounts s := by
  refine h.invariant (I := Accounts) ?_ ?_
  · rintro s rfl
    exact mainState_accounts ..
  · intro s t s' _ hs hstep
    cases t with
    | producer p => exact performTransactions_accounts hs hstep
    | consumer c => exact processTransactions_accounts hs hstep

end Accounts

end ProducerConsumer
