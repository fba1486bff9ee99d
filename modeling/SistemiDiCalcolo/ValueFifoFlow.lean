/-
No value is torn in the FIFO of Lab07/01.

* `ProducerStep`, `ConsumerStep` — what a step of a child can do;
* `Flow` — the FIFO holds the values written and not yet read, each whole;
* `value_transfer` — the `k`-th value read is the `k`-th value written.
-/
import SistemiDiCalcolo.ValueFifo

open Function (update)
open AccessLog (Byte intBytes)
open ForkWait (Status Parent ParentStep parentStep)

namespace ValueFifo

variable {prm : Params} {s s' : State prm} {p : Fin prm.numProducers} {c : Fin prm.numConsumers}
  {rand : ℕ} {ret : Ret}

/-! ### What a step can do -/

/-- The steps of `produce`. -/
inductive ProducerStep (s : State prm) (p : Fin prm.numProducers) : Ret → State prm → Prop
  | begin (ret : Ret) (rand : ℕ) : (s.prod p).pc = .loop → 0 < (s.prod p).numOps →
      ProducerStep s p ret { s with prod := update s.prod p { s.prod p with
        pc := .writing (performRandomTransaction rand) 0 } }
  | exit (ret : Ret) : (s.prod p).pc = .loop → (s.prod p).numOps = 0 →
      ProducerStep s p ret { s with prod := update s.prod p { s.prod p with pc := .exited } }
  | eintr (v : CInt) (n : ℕ) : (s.prod p).pc = .writing v n → ProducerStep s p .eintr s
  | write (v : CInt) (k n : ℕ) : (s.prod p).pc = .writing v k → k < 4 → n = 4 - k →
      ProducerStep s p (.moved n) { s with
        fifo := s.fifo ++ (intBytes v).drop k
        written := s.written ++ [v]
        prod := update s.prod p { s.prod p with pc := .writing v (k + n) } }
  | fail (ret : Ret) (v : CInt) (n : ℕ) : (s.prod p).pc = .writing v n → n < 4 → ¬ s.readOpen →
      ProducerStep s p ret { s with prod := update s.prod p { s.prod p with pc := .failed } }
  | ret (ret : Ret) (v : CInt) (n : ℕ) : (s.prod p).pc = .writing v n → 4 ≤ n →
      ProducerStep s p ret { s with prod := update s.prod p {
        pc := .loop
        numOps := (s.prod p).numOps - 1
        localSum := (s.prod p).localSum + v } }

theorem producer_step (h : producer s p rand ret = some s') : ProducerStep s p ret s' := by
  unfold producer at h
  cases hpc : (s.prod p).pc with
  | notForked | exited | failed =>
    simp only [hpc] at h
    cases h
  | loop =>
    simp only [hpc] at h
    cases h
    by_cases hops : 0 < (s.prod p).numOps
    · rw [if_pos hops]
      exact .begin ret rand hpc hops
    · rw [if_neg hops]
      exact .exit ret hpc (Nat.eq_zero_of_not_pos hops)
  | writing v k =>
    simp only [hpc] at h
    split at h
    · next hk =>
      split at h
      · cases ret with
        | eintr =>
          cases h
          exact .eintr v k hpc
        | moved n =>
          simp only at h
          split at h <;> cases h
          next hn => exact .write v k n hpc hk hn.1
      · next hclosed =>
        cases h
        exact .fail ret v k hpc hk hclosed
    · next hk =>
      cases h
      exact .ret ret v k hpc (Nat.le_of_not_lt hk)

/-- The steps of `consume`. -/
inductive ConsumerStep (s : State prm) (c : Fin prm.numConsumers) : Ret → State prm → Prop
  | begin (ret : Ret) : (s.cons c).pc = .loop → 0 < (s.cons c).numOps →
      ConsumerStep s c ret { s with
        cons := update s.cons c { s.cons c with pc := .reading 0 } }
  | exit (ret : Ret) : (s.cons c).pc = .loop → (s.cons c).numOps = 0 →
      ConsumerStep s c ret { s with cons := update s.cons c { s.cons c with pc := .exited } }
  | eintr (n : ℕ) : (s.cons c).pc = .reading n → ConsumerStep s c .eintr s
  | fail (n : ℕ) : (s.cons c).pc = .reading n → n < 4 → s.fifo = [] → ¬ s.writeOpen →
      ConsumerStep s c (.moved 0) { s with
        cons := update s.cons c { s.cons c with pc := .failed } }
  | read (k n : ℕ) : (s.cons c).pc = .reading k → k < 4 → 0 < n → n = min (4 - k) s.fifo.length →
      ConsumerStep s c (.moved n) { s with
        fifo := s.fifo.drop n
        read := if k + n < 4 then s.read
          else s.read ++ [intAt ((s.cons c).value.store k (s.fifo.take n)) 0]
        cons := update s.cons c { s.cons c with
          pc := .reading (k + n)
          value := (s.cons c).value.store k (s.fifo.take n) } }
  | ret (ret : Ret) (n : ℕ) : (s.cons c).pc = .reading n → 4 ≤ n →
      ConsumerStep s c ret { s with cons := update s.cons c { s.cons c with
        pc := .loop
        numOps := (s.cons c).numOps - 1
        localSum := (s.cons c).localSum + intAt (s.cons c).value 0 } }

theorem consumer_step (h : consumer s c ret = some s') : ConsumerStep s c ret s' := by
  unfold consumer at h
  cases hpc : (s.cons c).pc with
  | notForked | exited | failed =>
    simp only [hpc] at h
    cases h
  | loop =>
    simp only [hpc] at h
    cases h
    by_cases hops : 0 < (s.cons c).numOps
    · rw [if_pos hops]
      exact .begin ret hpc hops
    · rw [if_neg hops]
      exact .exit ret hpc (Nat.eq_zero_of_not_pos hops)
  | reading k =>
    simp only [hpc] at h
    split at h
    · next hk =>
      match ret with
      | .eintr =>
        cases h
        exact .eintr k hpc
      -- 0 bytes are the end of the stream
      | .moved 0 =>
        simp only at h
        split at h <;> cases h
        next hend => exact .fail k hpc hk hend.1 hend.2
      | .moved (n + 1) =>
        simp only at h
        split at h <;> cases h
        next hn => exact .read k (n + 1) hpc hk (Nat.succ_pos n) hn
    · next hk =>
      cases h
      exact .ret ret k hpc (Nat.le_of_not_lt hk)

/-- The step of a parent changes only the program points of its children. -/
theorem producerMain_step {child : Option (Fin prm.numProducers)}
    (h : producerMain s child = some s') :
    ∃ parent new, ParentStep s.producerMain (fun p => (s.prod p).status) parent new ∧
      s' = { s with
        producerMain := parent
        prod := match new with
          | none => s.prod
          | some p => update s.prod p { s.prod p with pc := .loop } } := by
  obtain ⟨⟨parent, new⟩, hstep, rfl⟩ := Option.map_eq_some_iff.mp h
  exact ⟨parent, new, ForkWait.parentStep_cases hstep, rfl⟩

theorem consumerMain_step {child : Option (Fin prm.numConsumers)}
    (h : consumerMain s child = some s') :
    ∃ parent new, ParentStep s.consumerMain (fun c => (s.cons c).status) parent new ∧
      s' = { s with
        consumerMain := parent
        cons := match new with
          | none => s.cons
          | some c => update s.cons c { s.cons c with pc := .loop } } := by
  obtain ⟨⟨parent, new⟩, hstep, rfl⟩ := Option.map_eq_some_iff.mp h
  exact ⟨parent, new, ForkWait.parentStep_cases hstep, rfl⟩

/-! ### The values in the FIFO -/

/-- The FIFO holds whole values; a child in `writeValue` or `readValue` has transferred
nothing yet, or all. -/
structure Flow (s : State prm) : Prop where
  values : ∃ rest, s.written = s.read ++ rest ∧ s.fifo = rest.flatMap intBytes
  writing : ∀ p v n, (s.prod p).pc = .writing v n → n = 0 ∨ n = 4
  reading : ∀ c n, (s.cons c).pc = .reading n → n = 0 ∨ n = 4

theorem length_flatMap_intBytes (vs : List CInt) :
    (vs.flatMap intBytes).length = 4 * vs.length := by
  induction vs with
  | nil => rfl
  | cons v vs ih =>
    rw [List.flatMap_cons, List.length_append, ih, List.length_cons]
    show 4 + _ = _
    omega

/-- What is at the head of a FIFO of whole values. -/
theorem exists_cons_of_flatMap {rest : List CInt} (hne : 0 < (rest.flatMap intBytes).length) :
    ∃ v rest', rest = v :: rest' ∧ (rest.flatMap intBytes).take 4 = intBytes v ∧
      (rest.flatMap intBytes).drop 4 = rest'.flatMap intBytes := by
  cases rest with
  | nil => exact absurd hne (Nat.lt_irrefl 0)
  | cons v rest' => exact ⟨v, rest', rfl, List.take_left' rfl, List.drop_left' rfl⟩

/-- The bytes of a value, read into an `int`. -/
theorem intAt_store_intBytes (m : Memory Byte) (v : CInt) :
    intAt (m.store 0 (intBytes v)) 0 = v := by
  apply intAt_of_load
  show (m.store 0 (intBytes v)).load 0 (intBytes v).length = intBytes v
  exact Memory.load_store

/-- The program points of the children, after a move of one of them. -/
theorem forall_writing_update {t : Producer}
    (h : ∀ p v n, (s.prod p).pc = .writing v n → n = 0 ∨ n = 4)
    (ht : ∀ v n, t.pc = .writing v n → n = 0 ∨ n = 4) (q : Fin prm.numProducers) (v : CInt) (n : ℕ)
    (hq : (update s.prod p t q).pc = .writing v n) : n = 0 ∨ n = 4 := by
  by_cases hqp : q = p
  · subst hqp
    rw [Function.update_self] at hq
    exact ht v n hq
  · rw [Function.update_of_ne hqp] at hq
    exact h q v n hq

theorem forall_reading_update {t : Consumer}
    (h : ∀ c n, (s.cons c).pc = .reading n → n = 0 ∨ n = 4)
    (ht : ∀ n, t.pc = .reading n → n = 0 ∨ n = 4) (d : Fin prm.numConsumers) (n : ℕ)
    (hd : (update s.cons c t d).pc = .reading n) : n = 0 ∨ n = 4 := by
  by_cases hdc : d = c
  · subst hdc
    rw [Function.update_self] at hd
    exact ht n hd
  · rw [Function.update_of_ne hdc] at hd
    exact h d n hd

theorem ProducerStep.flow (h : ProducerStep s p ret s') (hs : Flow s) : Flow s' := by
  cases h with
  | begin _ rand _ _ =>
    refine ⟨hs.values, forall_writing_update hs.writing fun v n h => ?_, hs.reading⟩
    cases h
    exact .inl rfl
  | exit _ _ _ =>
    exact ⟨hs.values, forall_writing_update hs.writing (fun v n h => by cases h), hs.reading⟩
  | eintr v n _ => exact hs
  | write v k n hpc hk hn =>
    obtain rfl : k = 0 := (hs.writing p v k hpc).resolve_right hk.ne
    obtain ⟨rest, hwritten, hfifo⟩ := hs.values
    refine ⟨⟨rest ++ [v], ?_, ?_⟩, forall_writing_update hs.writing fun w m h => ?_, hs.reading⟩
    · show s.written ++ [v] = _
      rw [hwritten, List.append_assoc]
    · show s.fifo ++ (intBytes v).drop 0 = _
      rw [hfifo, List.flatMap_append, List.flatMap_singleton, List.drop_zero]
    · cases h
      omega
  | fail _ v n _ _ _ =>
    exact ⟨hs.values, forall_writing_update hs.writing (fun v n h => by cases h), hs.reading⟩
  | ret _ v n _ _ =>
    exact ⟨hs.values, forall_writing_update hs.writing (fun v n h => by cases h), hs.reading⟩

/-- A `read` that starts a value takes all of it. -/
theorem Flow.read_eq (hs : Flow s) {n : ℕ} (hpos : 0 < n) (hn : n = min (4 - 0) s.fifo.length) :
    n = 4 ∧ ∃ v rest, s.written = s.read ++ v :: rest ∧ s.fifo.take 4 = intBytes v ∧
      s.fifo.drop 4 = rest.flatMap intBytes := by
  obtain ⟨rest, hwritten, hfifo⟩ := hs.values
  rw [hfifo] at hn ⊢
  have hne : 0 < (rest.flatMap intBytes).length := by omega
  obtain ⟨v, rest', rfl, htake, hdrop⟩ := exists_cons_of_flatMap hne
  have hlen := length_flatMap_intBytes (v :: rest')
  rw [List.length_cons] at hlen
  exact ⟨by omega, v, rest', hwritten, htake, hdrop⟩

theorem ConsumerStep.flow (h : ConsumerStep s c ret s') (hs : Flow s) : Flow s' := by
  cases h with
  | begin _ _ _ =>
    refine ⟨hs.values, hs.writing, forall_reading_update hs.reading fun n h => ?_⟩
    cases h
    exact .inl rfl
  | exit _ _ _ =>
    exact ⟨hs.values, hs.writing, forall_reading_update hs.reading fun n h => by cases h⟩
  | eintr n _ => exact hs
  | fail n _ _ _ _ =>
    exact ⟨hs.values, hs.writing, forall_reading_update hs.reading fun n h => by cases h⟩
  | read k n hpc hk hpos hn =>
    obtain rfl : k = 0 := (hs.reading c k hpc).resolve_right hk.ne
    obtain ⟨rfl, v, rest, hwritten, htake, hdrop⟩ := hs.read_eq hpos hn
    refine ⟨⟨rest, ?_, hdrop⟩, hs.writing, forall_reading_update hs.reading fun m h => ?_⟩
    · show s.written = (if 0 + 4 < 4 then s.read else s.read ++ [_]) ++ rest
      rw [if_neg (by omega), htake, intAt_store_intBytes, hwritten, List.append_assoc]
      rfl
    · cases h
      exact .inr rfl
  | ret _ n _ _ =>
    exact ⟨hs.values, hs.writing, forall_reading_update hs.reading fun n h => by cases h⟩

theorem flow (h : (program prm).Reachable s) : Flow s := by
  refine h.invariant (I := Flow) ?_ ?_
  · rintro s ⟨value, rfl⟩
    exact ⟨⟨[], rfl, rfl⟩, (fun p v n hp => by cases hp), fun c n hc => by cases hc⟩
  · intro s t s' _ hs hstep
    cases t with
    | producer p rand ret => exact (producer_step hstep).flow hs
    | consumer c ret => exact (consumer_step hstep).flow hs
    | producerMain child =>
      obtain ⟨parent, new, -, rfl⟩ := producerMain_step hstep
      refine ⟨hs.values, ?_, hs.reading⟩
      cases new with
      | none => exact hs.writing
      | some p => exact forall_writing_update hs.writing fun v n h => by cases h
    | consumerMain child =>
      obtain ⟨parent, new, -, rfl⟩ := consumerMain_step hstep
      refine ⟨hs.values, hs.writing, ?_⟩
      cases new with
      | none => exact hs.reading
      | some c => exact forall_reading_update hs.reading fun n h => by cases h

/-- **The transfer of the values**: the FIFO holds a whole number of values, the ones that
have been written and not read, and the `k`-th value read is the `k`-th value written. -/
theorem value_transfer (prm : Params) (s : State prm) (h : (program prm).Reachable s) :
    4 ∣ s.fifo.length ∧ (∀ (k : ℕ) (v : CInt), s.read[k]? = some v → s.written[k]? = some v) ∧
      s.fifo = (s.written.drop s.read.length).flatMap intBytes := by
  obtain ⟨rest, hwritten, hfifo⟩ := (flow h).values
  refine ⟨?_, fun k v hk => ?_, ?_⟩
  · rw [hfifo, length_flatMap_intBytes]
    exact Nat.dvd_mul_right 4 rest.length
  · have hlt := (List.getElem?_eq_some_iff.mp hk).1
    rw [hwritten, List.getElem?_append_left hlt]
    exact hk
  · rw [hwritten, List.drop_left, hfifo]

/-- Two producers and two consumers with two values each, in a FIFO of two values. -/
def pairs : Params where
  numProducers := 2
  numConsumers := 2
  opsPerProducer := 2
  opsPerConsumer := 2
  capacity := 8

/-- The two parents fork their children. -/
def forkSchedule : List (Agent pairs) :=
  List.replicate 3 (.producerMain none) ++ List.replicate 3 (.consumerMain none)

/-- The producer that comes second writes first, and the consumers read the other way round. -/
def crossSchedule (p q : Fin pairs.numProducers) (c d : Fin pairs.numConsumers) :
    List (Agent pairs) :=
  [.producer p 7 .eintr, .producer q 9 .eintr, .consumer c .eintr, .producer q 9 (.moved 4),
    .producer p 7 .eintr, .producer p 7 (.moved 4), .consumer d .eintr, .consumer d (.moved 4),
    .consumer c .eintr, .consumer c (.moved 4), .producer p 0 .eintr, .producer q 0 .eintr,
    .consumer c .eintr, .consumer d .eintr]

/-- Two values are written and read, a third one is in the FIFO. -/
theorem value_transfer_pairs : ∃ s, (program pairs).Reachable s ∧
    s.written = [performRandomTransaction 9, performRandomTransaction 7,
      performRandomTransaction 11] ∧
    s.read.length = 2 ∧ (∀ (k : ℕ) (v : CInt), s.read[k]? = some v → s.written[k]? = some v) ∧
    s.fifo = (s.written.drop s.read.length).flatMap intBytes := by
  have hrun : ((program pairs).run (start fun _ _ => 0) (forkSchedule
      ++ crossSchedule ⟨0, by decide⟩ ⟨1, by decide⟩ ⟨0, by decide⟩ ⟨1, by decide⟩
      ++ [.producer ⟨0, by decide⟩ 11 .eintr, .producer ⟨0, by decide⟩ 11 (.moved 4)])).map
        (fun s => (s.written, s.read.length))
      = some ([performRandomTransaction 9, performRandomTransaction 7,
        performRandomTransaction 11], 2) := by
    decide
  obtain ⟨s, hs, hvalues⟩ := Option.map_eq_some_iff.mp hrun
  have hstart : (program pairs).Reachable (start fun _ _ => 0) := .init ⟨_, rfl⟩
  have h := hstart.run hs
  obtain ⟨-, hread, hfifo⟩ := value_transfer pairs s h
  exact ⟨s, h, (Prod.mk.inj hvalues).1, (Prod.mk.inj hvalues).2, hread, hfifo⟩

end ValueFifo
