/-
The processes of `Lab05/src/02` follow the protocol of the semaphore-guarded
ring.

* `State.ring` reads a state of the two programs as a state of the protocol;
  every step is a step of the protocol or is not seen by it (`ring_step`);
* `mainState_ring` — the state that `initMemory` leaves is an initial state of
  the protocol when `BUFFER_SIZE` is 1, so that the ring's invariant then holds
  in every reachable state (`ring_inv`);
* `accounts` — what each process has done, has left to do, and has added to its
  `localSum`, whatever the buffer size.
-/
import SistemiDiCalcolo.SharedMemory
import SistemiDiCalcolo.SemRingInv

open Function (update)
open SemRing (Phase)

namespace SharedMemory

/-! ### The protocol -/

def ProducerPc.phase : ProducerPc → Phase
  | loop | waitEmpty | next | done => .idle
  | waitCs => .claimed
  | fetch => .entered
  | store i => .fetched i
  | refetch => .accessed
  | advance i => .refetched i
  | postCs => .advanced
  | postFilled => .left

def ConsumerPc.phase : ConsumerPc → Phase
  | loop | waitFilled | next | done => .idle
  | waitCs => .claimed
  | fetch => .entered
  | load i => .fetched i
  | refetch => .accessed
  | advance i => .refetched i
  | postCs => .advanced
  | postEmpty => .left

def Producer.phase (t : Producer) : Phase := t.pc.phase

def Consumer.phase (t : Consumer) : Phase := t.pc.phase

section Ring

variable {prm : Params} {s s' : State prm} {p : Fin prm.numProducers} {c : Fin prm.numConsumers}

/-- A state of the programs, read as a state of the ring protocol. -/
def State.ring (s : State prm) :
    SemRing.State (Fin prm.numProducers) (Fin prm.numConsumers) Side CInt where
  lock := s.semCs
  filled := s.semFilled
  empty := s.semEmpty
  writeIndex := s.writeIndex
  readIndex := s.readIndex
  cell := s.buf
  full := s.full
  prod := Producer.phase ∘ s.prod
  cons := Consumer.phase ∘ s.cons
  trace := s.trace

/-- With a single cell, `BUFFER_SIZE-1` is where the producers start as well. -/
theorem mainState_ring (hB : prm.bufferSize = 1) :
    SemRing.Initial prm.bufferSize (mainState prm).ring where
  lock m := by cases m <;> rfl
  filled := rfl
  empty := rfl
  writeIndex := rfl
  readIndex := by
    show prm.bufferSize - 1 = 0
    rw [hB]
  full _ := rfl
  prod := rfl
  cons := rfl
  trace := rfl

theorem phase_update_prod (s : State prm) (p : Fin prm.numProducers) (t : Producer) :
    Producer.phase ∘ update s.prod p t = update s.ring.prod p t.phase :=
  Function.comp_update ..

theorem phase_update_cons (s : State prm) (c : Fin prm.numConsumers) (t : Consumer) :
    Consumer.phase ∘ update s.cons c t = update s.ring.cons c t.phase :=
  Function.comp_update ..

theorem ring_prod_same {t : Producer} (h : t.phase = (s.prod p).phase) :
    State.ring { s with prod := update s.prod p t } = s.ring := by
  simp only [State.ring, phase_update_prod, h]
  exact s.ring.update_prod_self p

theorem ring_cons_same {t : Consumer} (h : t.phase = (s.cons c).phase) :
    State.ring { s with cons := update s.cons c t } = s.ring := by
  simp only [State.ring, phase_update_cons, h]
  exact s.ring.update_cons_self c

/-- The protocol's step relation between the readings of two states. -/
abbrev RingStep (s s' : State prm) : Prop :=
  SemRing.Step prm.bufferSize Side.producers Side.consumers s.ring s'.ring

/-- A producer's step is a step of the protocol, or is not seen by it. -/
theorem produce_ring (h : produce s p = some s') : s'.ring = s.ring ∨ RingStep s s' := by
  have hphase : s.ring.prod p = (s.prod p).pc.phase := rfl
  cases produce_step h with
  | ended hpc _ | produce v rest hpc _ | next hpc =>
    exact .inl (ring_prod_same (by simp only [Producer.phase, hpc]; rfl))
  | waitEmpty hpc hpos =>
    rw [hpc] at hphase
    exact .inr (.of_eq (.claimEmpty p hphase hpos)
      (by simp only [State.ring, phase_update_prod]; rfl))
  | waitCs hpc hpos =>
    rw [hpc] at hphase
    exact .inr (.of_eq (.lockWrite p hphase hpos)
      (by simp only [State.ring, phase_update_prod]; rfl))
  | fetch hpc =>
    rw [hpc] at hphase
    exact .inr (.of_eq (.fetchWrite p hphase) (by simp only [State.ring, phase_update_prod]; rfl))
  | store i hpc =>
    rw [hpc] at hphase
    exact .inr (.of_eq (.store p i _ hphase) (by simp only [State.ring, phase_update_prod]; rfl))
  | refetch hpc =>
    rw [hpc] at hphase
    exact .inr (.of_eq (.refetchWrite p hphase) (by simp only [State.ring, phase_update_prod]; rfl))
  | advance i hpc =>
    rw [hpc] at hphase
    exact .inr (.of_eq (.advanceWrite p i hphase)
      (by simp only [State.ring, phase_update_prod]; rfl))
  | postCs hpc =>
    rw [hpc] at hphase
    exact .inr (.of_eq (.unlockWrite p hphase) (by simp only [State.ring, phase_update_prod]; rfl))
  | postFilled hpc =>
    rw [hpc] at hphase
    exact .inr (.of_eq (.giveFilled p hphase) (by simp only [State.ring, phase_update_prod]; rfl))

/-- A consumer's step is a step of the protocol, or is not seen by it. -/
theorem consume_ring (h : consume s c = some s') : s'.ring = s.ring ∨ RingStep s s' := by
  have hphase : s.ring.cons c = (s.cons c).pc.phase := rfl
  cases consume_step h with
  | ended hpc _ | round hpc _ | next hpc =>
    exact .inl (ring_cons_same (by simp only [Consumer.phase, hpc]; rfl))
  | waitFilled hpc hpos =>
    rw [hpc] at hphase
    exact .inr (.of_eq (.claimFilled c hphase hpos)
      (by simp only [State.ring, phase_update_cons]; rfl))
  | waitCs hpc hpos =>
    rw [hpc] at hphase
    exact .inr (.of_eq (.lockRead c hphase hpos)
      (by simp only [State.ring, phase_update_cons]; rfl))
  | fetch hpc =>
    rw [hpc] at hphase
    exact .inr (.of_eq (.fetchRead c hphase) (by simp only [State.ring, phase_update_cons]; rfl))
  | load i hpc =>
    rw [hpc] at hphase
    exact .inr (.of_eq (.load c i hphase) (by simp only [State.ring, phase_update_cons]; rfl))
  | refetch hpc =>
    rw [hpc] at hphase
    exact .inr (.of_eq (.refetchRead c hphase) (by simp only [State.ring, phase_update_cons]; rfl))
  | advance i hpc =>
    rw [hpc] at hphase
    exact .inr (.of_eq (.advanceRead c i hphase)
      (by simp only [State.ring, phase_update_cons]; rfl))
  | postCs hpc =>
    rw [hpc] at hphase
    exact .inr (.of_eq (.unlockRead c hphase) (by simp only [State.ring, phase_update_cons]; rfl))
  | postEmpty hpc =>
    rw [hpc] at hphase
    exact .inr (.of_eq (.giveEmpty c hphase) (by simp only [State.ring, phase_update_cons]; rfl))

theorem ring_step {t : Process prm} (h : processStep s t = some s') :
    s'.ring = s.ring ∨ RingStep s s' := by
  cases t with
  | producer p => exact produce_ring h
  | consumer c => exact consume_ring h

/-- With a single cell, the ring's invariant holds in every reachable state. -/
theorem ring_inv (hB : prm.bufferSize = 1) (h : (program prm).Reachable s) :
    SemRing.Inv prm.bufferSize Side.producers Side.consumers s.ring := by
  refine h.refine (f := State.ring)
    (R := SemRing.Step prm.bufferSize Side.producers Side.consumers) ?_
    (fun _ _ _ _ => ring_step) fun _ _ hs hstep => hs.step prm.bufferSize_pos hstep
  rintro s rfl
  exact (mainState_ring hB).inv prm.bufferSize_pos

end Ring

/-! ### The accounts of each process -/

/-- The values that the producer has yet to store. -/
def Producer.toStore (t : Producer) : List CInt :=
  match t.pc with
  | .refetch | .advance _ | .postCs | .postFilled | .next => t.ops.tail
  | _ => t.ops

/-- What the producer has stored and not yet added to `localSum`. -/
def Producer.pending (t : Producer) : CInt :=
  match t.pc with
  | .refetch | .advance _ | .postCs | .postFilled | .next => t.value
  | _ => 0

/-- A producer on its way to a store has its next value at hand, and one that is
done has none left. -/
def Producer.Coherent (t : Producer) : Prop :=
  match t.pc with
  | .waitEmpty | .waitCs | .fetch | .store _ => t.ops.head? = some t.value
  | .done => t.ops = []
  | _ => True

/-- The number of values that the consumer has yet to load. -/
def Consumer.toLoad (t : Consumer) : ℕ :=
  match t.pc with
  | .refetch | .advance _ | .postCs | .postEmpty | .next => t.numOps - 1
  | _ => t.numOps

def Consumer.pending (t : Consumer) : CInt :=
  match t.pc with
  | .refetch | .advance _ | .postCs | .postEmpty | .next => t.value
  | _ => 0

def Consumer.Coherent (t : Consumer) : Prop :=
  match t.pc with
  | .waitFilled | .waitCs | .fetch | .load _ => 0 < t.numOps
  | .done => t.numOps = 0
  | _ => True

/-- A producer that is given `values` and has stored `stored`. -/
structure Producer.Account (values stored : List CInt) (t : Producer) : Prop where
  ops : stored ++ t.toStore = values
  sum : t.localSum + t.pending = stored.sum
  coherent : t.Coherent

/-- A consumer that is given `numOps` operations and has loaded `loaded`. -/
structure Consumer.Account (numOps : ℕ) (loaded : List CInt) (t : Consumer) : Prop where
  ops : loaded.length + t.toLoad = numOps
  sum : t.localSum + t.pending = loaded.sum
  coherent : t.Coherent

section Accounts

variable {prm : Params} {s s' : State prm} {p : Fin prm.numProducers} {c : Fin prm.numConsumers}

/-- A producer's own account after one of its steps. -/
theorem produce_account {values : List CInt} (h : produce s p = some s')
    (hs : (s.prod p).Account values (storesOf p s.trace)) :
    (s'.prod p).Account values (storesOf p s'.trace) := by
  obtain ⟨hops, hsum, hok⟩ := hs
  rw [Producer.toStore] at hops
  rw [Producer.pending] at hsum
  rw [Producer.Coherent] at hok
  cases produce_step h with
  | ended hpc hend | produce v rest hpc hend =>
    rw [hpc] at hops hsum
    simp only [Function.update_self]
    exact ⟨hops, hsum, by simp only [Producer.Coherent, hend, List.head?_cons]⟩
  | store i hpc =>
    rw [hpc] at hops hsum hok
    refine ⟨?_, ?_, by simp [Producer.Coherent]⟩
    · simp only [Producer.toStore, Function.update_self]
      rw [storesOf_append_store, if_pos rfl, List.append_assoc, ← hops]
      congr 1
      exact List.cons_head?_tail hok
    · simp only [Producer.pending, Function.update_self]
      rw [storesOf_append_store, if_pos rfl, List.sum_append, List.sum_singleton, ← hsum, add_zero]
  | next hpc =>
    -- the value is moved to the sum
    rw [hpc] at hops hsum
    simp only [Function.update_self]
    exact ⟨hops, (add_zero _).trans hsum, trivial⟩
  | waitEmpty hpc _ | waitCs hpc _ | fetch hpc | refetch hpc | advance i hpc | postCs hpc
  | postFilled hpc =>
    rw [hpc] at hops hsum hok
    simp only [Function.update_self]
    exact ⟨hops, hsum, hok⟩

/-- A consumer's own account after one of its steps. -/
theorem consume_account {n : ℕ} (h : consume s c = some s')
    (hs : (s.cons c).Account n (loadsOf c s.trace)) :
    (s'.cons c).Account n (loadsOf c s'.trace) := by
  obtain ⟨hops, hsum, hok⟩ := hs
  rw [Consumer.toLoad] at hops
  rw [Consumer.pending] at hsum
  rw [Consumer.Coherent] at hok
  cases consume_step h with
  | ended hpc hend | round hpc hend =>
    rw [hpc] at hops hsum
    simp only [Function.update_self]
    exact ⟨hops, hsum, hend⟩
  | load i hpc =>
    rw [hpc] at hops hsum hok
    refine ⟨?_, ?_, by simp [Consumer.Coherent]⟩
    · simp only [Consumer.toLoad, Function.update_self]
      rw [loadsOf_append_load, if_pos rfl, List.length_append, List.length_singleton]
      have hpos : 0 < (s.cons c).numOps := hok
      have hcount : (loadsOf c s.trace).length + (s.cons c).numOps = n := hops
      omega
    · simp only [Consumer.pending, Function.update_self]
      rw [loadsOf_append_load, if_pos rfl, List.sum_append, List.sum_singleton, ← hsum, add_zero]
  | next hpc =>
    rw [hpc] at hops hsum
    simp only [Function.update_self]
    exact ⟨hops, (add_zero _).trans hsum, trivial⟩
  | waitFilled hpc _ | waitCs hpc _ | fetch hpc | refetch hpc | advance i hpc | postCs hpc
  | postEmpty hpc =>
    rw [hpc] at hops hsum hok
    simp only [Function.update_self]
    exact ⟨hops, hsum, hok⟩

/-- A producer's step leaves the other processes and their accesses alone. -/
theorem produce_frame (h : produce s p = some s') :
    s'.cons = s.cons ∧ (∀ c, loadsOf c s'.trace = loadsOf c s.trace) ∧
      ∀ q, q ≠ p → s'.prod q = s.prod q ∧ storesOf q s'.trace = storesOf q s.trace := by
  cases produce_step h with
  | store i _ =>
    refine ⟨rfl, fun c => loadsOf_append_store .., fun q hq => ⟨Function.update_of_ne hq .., ?_⟩⟩
    rw [storesOf_append_store, if_neg (Ne.symm hq), List.append_nil]
  | ended | produce | waitEmpty | waitCs | fetch | refetch | advance | postCs | postFilled | next =>
    exact ⟨rfl, fun _ => rfl, fun q hq => ⟨Function.update_of_ne hq .., rfl⟩⟩

theorem consume_frame (h : consume s c = some s') :
    s'.prod = s.prod ∧ (∀ p, storesOf p s'.trace = storesOf p s.trace) ∧
      ∀ d, d ≠ c → s'.cons d = s.cons d ∧ loadsOf d s'.trace = loadsOf d s.trace := by
  cases consume_step h with
  | load i _ =>
    refine ⟨rfl, fun p => storesOf_append_load .., fun d hd => ⟨Function.update_of_ne hd .., ?_⟩⟩
    rw [loadsOf_append_load, if_neg (Ne.symm hd), List.append_nil]
  | ended | round | waitFilled | waitCs | fetch | refetch | advance | postCs | postEmpty | next =>
    exact ⟨rfl, fun _ => rfl, fun d hd => ⟨Function.update_of_ne hd .., rfl⟩⟩

/-- The accounts of all processes. -/
structure Accounts (s : State prm) : Prop where
  prod : ∀ p, (s.prod p).Account (prm.values p) (storesOf p s.trace)
  cons : ∀ c, (s.cons c).Account (prm.numOps c) (loadsOf c s.trace)

theorem accounts (h : (program prm).Reachable s) : Accounts s := by
  refine h.invariant (I := Accounts) ?_ ?_
  · rintro s rfl
    exact ⟨fun p => ⟨rfl, rfl, trivial⟩, fun c => ⟨Nat.zero_add _, rfl, trivial⟩⟩
  · intro s t s' _ hs hstep
    cases t with
    | producer p =>
      obtain ⟨hcons, hloads, hothers⟩ := produce_frame hstep
      constructor
      · intro q
        by_cases hq : q = p
        · subst hq
          exact produce_account hstep (hs.prod q)
        · rw [(hothers q hq).1, (hothers q hq).2]
          exact hs.prod q
      · intro c
        rw [hcons, hloads]
        exact hs.cons c
    | consumer c =>
      obtain ⟨hprod, hstores, hothers⟩ := consume_frame hstep
      constructor
      · intro p
        rw [hprod, hstores]
        exact hs.prod p
      · intro d
        by_cases hd : d = c
        · subst hd
          exact consume_account hstep (hs.cons d)
        · rw [(hothers d hd).1, (hothers d hd).2]
          exact hs.cons d

end Accounts

end SharedMemory
