/-
The orderly end of the programs of Lab07/01.

When both sides have the same total of operations, the descriptors stay open as long
as somebody needs them, and nobody waits for ever.

* `Books` — what each child has transferred, and the histories of the FIFO;
* `Books.readOpen`, `Books.writeOpen` — no `write` without readers, no end of file;
* `Books.allDone_of_quiescent` — nobody is stuck before all have finished;
* `orderly_end` — with these, the sums at the end.
-/
import SistemiDiCalcolo.ValueFifoFlow

open Function (update)
open AccessLog (Byte intBytes)
open ForkWait (Status Parent ParentStep parentStep)

namespace ValueFifo

variable {prm : Params} {s s' : State prm} {p : Fin prm.numProducers} {c : Fin prm.numConsumers}
  {ret : Ret}

/-! ### What each child has done -/

/-- The counter of a producer, at each of its points. -/
def Producer.Ok (prm : Params) (t : Producer) : Prop :=
  match t.pc with
  | .notForked | .loop => t.numOps ≤ prm.opsPerProducer
  | .writing _ _ => 0 < t.numOps ∧ t.numOps ≤ prm.opsPerProducer
  | .exited => t.numOps = 0
  | .failed => False

def Consumer.Ok (prm : Params) (t : Consumer) : Prop :=
  match t.pc with
  | .notForked | .loop => t.numOps ≤ prm.opsPerConsumer
  | .reading _ => 0 < t.numOps ∧ t.numOps ≤ prm.opsPerConsumer
  | .exited => t.numOps = 0
  | .failed => False

/-- The values a producer has written. -/
def Producer.numWritten (prm : Params) (t : Producer) : ℕ :=
  match t.pc with
  | .writing _ 4 => prm.opsPerProducer - t.numOps + 1
  | _ => prm.opsPerProducer - t.numOps

/-- Their sum. -/
def Producer.sumWritten (t : Producer) : CInt :=
  match t.pc with
  | .writing v 4 => t.localSum + v
  | _ => t.localSum

/-- The values a consumer has read. -/
def Consumer.numRead (prm : Params) (t : Consumer) : ℕ :=
  match t.pc with
  | .reading 4 => prm.opsPerConsumer - t.numOps + 1
  | _ => prm.opsPerConsumer - t.numOps

/-- Their sum. -/
def Consumer.sumRead (t : Consumer) : CInt :=
  match t.pc with
  | .reading 4 => t.localSum + intAt t.value 0
  | _ => t.localSum

/-- The children, their parents, and the values by the children that have moved them. -/
structure Books (s : State prm) : Prop where
  flow : Flow s
  producer : ∀ p, (s.prod p).Ok prm
  consumer : ∀ c, (s.cons c).Ok prm
  producerMain : ForkWait.Inv s.producerMain fun p => (s.prod p).status
  consumerMain : ForkWait.Inv s.consumerMain fun c => (s.cons c).status
  numWritten : tally (Producer.numWritten prm) s.prod = s.written.length
  numRead : tally (Consumer.numRead prm) s.cons = s.read.length
  sumWritten : tally Producer.sumWritten s.prod = s.written.sum
  sumRead : tally Consumer.sumRead s.cons = s.read.sum

theorem Producer.Ok.numWritten_le {t : Producer} (ht : t.Ok prm) :
    t.numWritten prm ≤ prm.opsPerProducer := by
  unfold Producer.numWritten
  split
  · next v hpc =>
    rw [Producer.Ok, hpc] at ht
    omega
  · exact Nat.sub_le _ _

theorem Consumer.Ok.numRead_le {t : Consumer} (ht : t.Ok prm) :
    t.numRead prm ≤ prm.opsPerConsumer := by
  unfold Consumer.numRead
  split
  · next hpc =>
    rw [Consumer.Ok, hpc] at ht
    omega
  · exact Nat.sub_le _ _

theorem Producer.numWritten_of_exited {t : Producer} (ht : t.Ok prm)
    (hexited : t.status = .exited) : t.numWritten prm = prm.opsPerProducer := by
  cases hpc : t.pc <;> simp only [Producer.status, hpc] at hexited <;> try cases hexited
  rw [Producer.Ok, hpc] at ht
  rw [Producer.numWritten, hpc, ht]
  rfl

theorem Consumer.numRead_of_exited {t : Consumer} (ht : t.Ok prm) (hexited : t.status = .exited) :
    t.numRead prm = prm.opsPerConsumer := by
  cases hpc : t.pc <;> simp only [Consumer.status, hpc] at hexited <;> try cases hexited
  rw [Consumer.Ok, hpc] at ht
  rw [Consumer.numRead, hpc, ht]
  rfl

/-! ### The descriptors -/

/-- The values read are at most the values written. -/
theorem Books.read_le (hs : Books s) : s.read.length ≤ s.written.length := by
  obtain ⟨rest, hwritten, -⟩ := hs.flow.values
  rw [hwritten, List.length_append]
  exact Nat.le_add_right _ _

theorem Books.written_le (hs : Books s) :
    s.written.length ≤ prm.numProducers * prm.opsPerProducer := by
  have hle := tally_le_card_mul fun p => (hs.producer p).numWritten_le
  rwa [Fintype.card_fin, hs.numWritten] at hle

/-- All producers have exited: all values have been written. -/
theorem Books.written_eq (hs : Books s) (hexited : ∀ p, (s.prod p).status = .exited) :
    s.written.length = prm.numProducers * prm.opsPerProducer := by
  rw [← hs.numWritten, tally, Finset.sum_congr rfl fun p _ =>
    Producer.numWritten_of_exited (hs.producer p) (hexited p), Finset.sum_const, Finset.card_univ,
    Fintype.card_fin, smul_eq_mul]

theorem Books.read_eq (hs : Books s) (hexited : ∀ c, (s.cons c).status = .exited) :
    s.read.length = prm.numConsumers * prm.opsPerConsumer := by
  rw [← hs.numRead, tally, Finset.sum_congr rfl fun c _ =>
    Consumer.numRead_of_exited (hs.consumer c) (hexited c), Finset.sum_const, Finset.card_univ,
    Fintype.card_fin, smul_eq_mul]

/-- A producer in the middle of a value has not written all of its own. -/
theorem Books.numWritten_lt (hs : Books s) {v : CInt} {n : ℕ}
    (hpc : (s.prod p).pc = .writing v n) (hn : n < 4) :
    s.written.length < prm.numProducers * prm.opsPerProducer := by
  by_contra hle
  have hall : Fintype.card (Fin prm.numProducers) * prm.opsPerProducer
      ≤ tally (Producer.numWritten prm) s.prod := by
    rw [Fintype.card_fin, hs.numWritten]
    exact Nat.le_of_not_lt hle
  have hp := eq_of_card_mul_le_tally (fun q => (hs.producer q).numWritten_le) hall p
  have hok := hs.producer p
  rw [Producer.Ok, hpc] at hok
  rcases hs.flow.writing p v n hpc with rfl | rfl
  · simp only [Producer.numWritten, hpc] at hp
    omega
  · exact absurd hn (Nat.lt_irrefl 4)

theorem Books.numRead_lt (hs : Books s) {n : ℕ} (hpc : (s.cons c).pc = .reading n) (hn : n < 4) :
    s.read.length < prm.numConsumers * prm.opsPerConsumer := by
  by_contra hle
  have hall : Fintype.card (Fin prm.numConsumers) * prm.opsPerConsumer
      ≤ tally (Consumer.numRead prm) s.cons := by
    rw [Fintype.card_fin, hs.numRead]
    exact Nat.le_of_not_lt hle
  have hc := eq_of_card_mul_le_tally (fun d => (hs.consumer d).numRead_le) hall c
  have hok := hs.consumer c
  rw [Consumer.Ok, hpc] at hok
  rcases hs.flow.reading c n hpc with rfl | rfl
  · simp only [Consumer.numRead, hpc] at hc
    omega
  · exact absurd hn (Nat.lt_irrefl 4)

/-- With the FIFO empty, all that has been written has been read. -/
theorem Books.read_eq_written (hs : Books s) (hempty : s.fifo = []) : s.read = s.written := by
  obtain ⟨rest, hwritten, hfifo⟩ := hs.flow.values
  have hlen := length_flatMap_intBytes rest
  rw [← hfifo, hempty, List.length_nil] at hlen
  have hrest : rest = [] := List.length_eq_zero_iff.mp (by omega)
  rw [hwritten, hrest, List.append_nil]

section Total

variable (htotal : prm.numProducers * prm.opsPerProducer = prm.numConsumers * prm.opsPerConsumer)
include htotal

/-- **No `write` without readers**: as long as a value is to be written, somebody has the
FIFO open for reading. -/
theorem Books.readOpen (hs : Books s) {v : CInt} {n : ℕ} (hpc : (s.prod p).pc = .writing v n)
    (hn : n < 4) : s.readOpen := by
  by_contra hclosed
  obtain ⟨hmain, -⟩ := not_or.mp hclosed
  have hread := hs.read_eq fun c =>
    hs.consumerMain.exited_of_closed (Bool.eq_false_of_not_eq_true hmain) c
  have hwritten := hs.numWritten_lt hpc hn
  have hle := hs.read_le
  omega

/-- **No end of file**: as long as a value is to be read and the FIFO is empty, somebody has
it open for writing. -/
theorem Books.writeOpen (hs : Books s) {n : ℕ} (hpc : (s.cons c).pc = .reading n) (hn : n < 4)
    (hempty : s.fifo = []) : s.writeOpen := by
  by_contra hclosed
  obtain ⟨hmain, -⟩ := not_or.mp hclosed
  have hwritten := hs.written_eq fun p =>
    hs.producerMain.exited_of_closed (Bool.eq_false_of_not_eq_true hmain) p
  have hread := hs.numRead_lt hpc hn
  rw [hs.read_eq_written hempty] at hread
  omega

end Total

/-! ### The steps -/

/-- What a producer's move does to the books. -/
theorem Books.of_producer (hs : Books s) {t : Producer} (hflow : Flow s')
    (hprod : s'.prod = update s.prod p t) (hcons : s'.cons = s.cons) (hread : s'.read = s.read)
    (hmain : s'.producerMain = s.producerMain ∧ s'.consumerMain = s.consumerMain)
    (hrunning : (s.prod p).status = .running) (hstatus : t.status = .running ∨ t.status = .exited)
    (hok : t.Ok prm)
    (hnum : s'.written.length + (s.prod p).numWritten prm = s.written.length + t.numWritten prm)
    (hsum : s'.written.sum + (s.prod p).sumWritten = s.written.sum + t.sumWritten) :
    Books s' := by
  have hn := tally_update (Producer.numWritten prm) s.prod p t
  have hσ := tally_update Producer.sumWritten s.prod p t
  have hstatus' : (fun q => (s'.prod q).status)
      = update (fun q => (s.prod q).status) p t.status := by
    rw [hprod]
    exact Function.comp_update Producer.status s.prod p t
  refine ⟨hflow, ?_, ?_, ?_, ?_, ?_, ?_, ?_, ?_⟩
  · rw [hprod]
    exact (Function.forall_update_iff s.prod fun _ u => u.Ok prm).mpr
      ⟨hok, fun q _ => hs.producer q⟩
  · rw [hcons]
    exact hs.consumer
  · rw [hstatus', hmain.1]
    exact hs.producerMain.of_running hrunning hstatus
  · rw [hcons, hmain.2]
    exact hs.consumerMain
  · rw [hprod]
    rw [hs.numWritten] at hn
    omega
  · rw [hcons, hread]
    exact hs.numRead
  · rw [hprod]
    rw [hs.sumWritten] at hσ
    exact add_right_cancel (hσ.trans hsum.symm)
  · rw [hcons, hread]
    exact hs.sumRead

theorem Books.of_consumer (hs : Books s) {t : Consumer} (hflow : Flow s')
    (hcons : s'.cons = update s.cons c t) (hprod : s'.prod = s.prod)
    (hwritten : s'.written = s.written)
    (hmain : s'.producerMain = s.producerMain ∧ s'.consumerMain = s.consumerMain)
    (hrunning : (s.cons c).status = .running) (hstatus : t.status = .running ∨ t.status = .exited)
    (hok : t.Ok prm)
    (hnum : s'.read.length + (s.cons c).numRead prm = s.read.length + t.numRead prm)
    (hsum : s'.read.sum + (s.cons c).sumRead = s.read.sum + t.sumRead) : Books s' := by
  have hn := tally_update (Consumer.numRead prm) s.cons c t
  have hσ := tally_update Consumer.sumRead s.cons c t
  have hstatus' : (fun d => (s'.cons d).status)
      = update (fun d => (s.cons d).status) c t.status := by
    rw [hcons]
    exact Function.comp_update Consumer.status s.cons c t
  refine ⟨hflow, ?_, ?_, ?_, ?_, ?_, ?_, ?_, ?_⟩
  · rw [hprod]
    exact hs.producer
  · rw [hcons]
    exact (Function.forall_update_iff s.cons fun _ u => u.Ok prm).mpr
      ⟨hok, fun d _ => hs.consumer d⟩
  · rw [hprod, hmain.1]
    exact hs.producerMain
  · rw [hstatus', hmain.2]
    exact hs.consumerMain.of_running hrunning hstatus
  · rw [hprod, hwritten]
    exact hs.numWritten
  · rw [hcons]
    rw [hs.numRead] at hn
    omega
  · rw [hprod, hwritten]
    exact hs.sumWritten
  · rw [hcons]
    rw [hs.sumRead] at hσ
    exact add_right_cancel (hσ.trans hsum.symm)

theorem ProducerStep.books
    (htotal : prm.numProducers * prm.opsPerProducer = prm.numConsumers * prm.opsPerConsumer)
    (h : ProducerStep s p ret s') (hs : Books s) : Books s' := by
  have hflow := h.flow hs.flow
  have hok := hs.producer p
  cases h with
  | begin _ rand hpc hops =>
    rw [Producer.Ok, hpc] at hok
    refine hs.of_producer (p := p) hflow rfl rfl rfl ⟨rfl, rfl⟩ ?_ (.inl rfl) ⟨hops, hok⟩ ?_ ?_
    · rw [Producer.status, hpc]
    · simp only [Producer.numWritten, hpc]
    · simp only [Producer.sumWritten, hpc]
  | exit _ hpc hops =>
    refine hs.of_producer (p := p) hflow rfl rfl rfl ⟨rfl, rfl⟩ ?_ (.inr rfl) hops ?_ ?_
    · rw [Producer.status, hpc]
    · simp only [Producer.numWritten, hpc]
    · simp only [Producer.sumWritten, hpc]
  | eintr v n _ => exact hs
  | write v k n hpc hk hn =>
    rw [Producer.Ok, hpc] at hok
    -- no piece of the value has been written before
    obtain rfl : k = 0 := (hs.flow.writing p v k hpc).resolve_right hk.ne
    subst hn
    refine hs.of_producer (p := p) hflow rfl rfl rfl ⟨rfl, rfl⟩ ?_ (.inl rfl) hok ?_ ?_
    · rw [Producer.status, hpc]
    · simp only [Producer.numWritten, hpc, List.length_append, List.length_singleton]
      omega
    · simp only [Producer.sumWritten, hpc, List.sum_append, List.sum_singleton]
      ac_rfl
  | fail _ v n hpc hn hclosed => exact absurd (hs.readOpen htotal hpc hn) hclosed
  | ret _ v n hpc hn =>
    rw [Producer.Ok, hpc] at hok
    obtain rfl : n = 4 := (hs.flow.writing p v n hpc).resolve_left (by omega)
    refine hs.of_producer (p := p) hflow rfl rfl rfl ⟨rfl, rfl⟩ ?_ (.inl rfl)
      ((Nat.sub_le _ 1).trans hok.2) ?_ ?_
    · rw [Producer.status, hpc]
    · simp only [Producer.numWritten, hpc]
      omega
    · simp only [Producer.sumWritten, hpc]

theorem ConsumerStep.books
    (htotal : prm.numProducers * prm.opsPerProducer = prm.numConsumers * prm.opsPerConsumer)
    (h : ConsumerStep s c ret s') (hs : Books s) : Books s' := by
  have hflow := h.flow hs.flow
  have hok := hs.consumer c
  cases h with
  | begin _ hpc hops =>
    rw [Consumer.Ok, hpc] at hok
    refine hs.of_consumer (c := c) hflow rfl rfl rfl ⟨rfl, rfl⟩ ?_ (.inl rfl) ⟨hops, hok⟩ ?_ ?_
    · rw [Consumer.status, hpc]
    · simp only [Consumer.numRead, hpc]
    · simp only [Consumer.sumRead, hpc]
  | exit _ hpc hops =>
    refine hs.of_consumer (c := c) hflow rfl rfl rfl ⟨rfl, rfl⟩ ?_ (.inr rfl) hops ?_ ?_
    · rw [Consumer.status, hpc]
    · simp only [Consumer.numRead, hpc]
    · simp only [Consumer.sumRead, hpc]
  | eintr n _ => exact hs
  | fail n hpc hn hempty hclosed => exact absurd (hs.writeOpen htotal hpc hn hempty) hclosed
  | read k n hpc hk hpos hn =>
    rw [Consumer.Ok, hpc] at hok
    -- no piece of a value has been read before, so this is a whole one
    obtain rfl : k = 0 := (hs.flow.reading c k hpc).resolve_right hk.ne
    obtain ⟨rfl, -⟩ := hs.flow.read_eq hpos hn
    have hread : (if 0 + 4 < 4 then s.read
        else s.read ++ [intAt ((s.cons c).value.store 0 (s.fifo.take 4)) 0])
        = s.read ++ [intAt ((s.cons c).value.store 0 (s.fifo.take 4)) 0] :=
      if_neg (Nat.lt_irrefl 4)
    refine hs.of_consumer (c := c) hflow rfl rfl rfl ⟨rfl, rfl⟩ ?_ (.inl rfl) hok ?_ ?_
    · rw [Consumer.status, hpc]
    · show (if 0 + 4 < 4 then s.read else s.read ++ [_]).length + _ = _
      rw [hread]
      simp only [Consumer.numRead, hpc, List.length_append, List.length_singleton]
      omega
    · show (if 0 + 4 < 4 then s.read else s.read ++ [_]).sum + _ = _
      rw [hread]
      simp only [Consumer.sumRead, hpc, List.sum_append, List.sum_singleton]
      ac_rfl
  | ret _ n hpc hn =>
    rw [Consumer.Ok, hpc] at hok
    obtain rfl : n = 4 := (hs.flow.reading c n hpc).resolve_left (by omega)
    refine hs.of_consumer (c := c) hflow rfl rfl rfl ⟨rfl, rfl⟩ ?_ (.inl rfl)
      ((Nat.sub_le _ 1).trans hok.2) ?_ ?_
    · rw [Consumer.status, hpc]
    · simp only [Consumer.numRead, hpc]
      omega
    · simp only [Consumer.sumRead, hpc]

theorem Producer.Ok.not_failed {t : Producer} (ht : t.Ok prm) : t.status ≠ .failed := by
  cases hpc : t.pc <;> simp only [Producer.Ok, Producer.status, hpc] at ht ⊢
  all_goals exact Status.noConfusion

theorem Consumer.Ok.not_failed {t : Consumer} (ht : t.Ok prm) : t.status ≠ .failed := by
  cases hpc : t.pc <;> simp only [Consumer.Ok, Consumer.status, hpc] at ht ⊢
  all_goals exact Status.noConfusion

/-- A producer that is forked. -/
theorem Producer.fork {t : Producer} (ht : t.Ok prm) (hnew : t.status = .notForked) :
    ({ t with pc := .loop } : Producer).Ok prm ∧
      ({ t with pc := .loop } : Producer).numWritten prm = t.numWritten prm ∧
      ({ t with pc := .loop } : Producer).sumWritten = t.sumWritten := by
  cases hpc : t.pc <;> simp only [Producer.status, hpc] at hnew <;> try cases hnew
  rw [Producer.Ok, hpc] at ht
  refine ⟨ht, ?_, ?_⟩
  · simp only [Producer.numWritten, hpc]
  · simp only [Producer.sumWritten, hpc]

theorem Consumer.fork {t : Consumer} (ht : t.Ok prm) (hnew : t.status = .notForked) :
    ({ t with pc := .loop } : Consumer).Ok prm ∧
      ({ t with pc := .loop } : Consumer).numRead prm = t.numRead prm ∧
      ({ t with pc := .loop } : Consumer).sumRead = t.sumRead := by
  cases hpc : t.pc <;> simp only [Consumer.status, hpc] at hnew <;> try cases hnew
  rw [Consumer.Ok, hpc] at ht
  refine ⟨ht, ?_, ?_⟩
  · simp only [Consumer.numRead, hpc]
  · simp only [Consumer.sumRead, hpc]

theorem Books.of_producerMain {child : Option (Fin prm.numProducers)} (hs : Books s)
    (hflow : Flow s') (h : ValueFifo.producerMain s child = some s') : Books s' := by
  obtain ⟨parent, new, hstep, rfl⟩ := producerMain_step h
  obtain ⟨hmain, hnew⟩ := hs.producerMain.step (fun p => (hs.producer p).not_failed) hstep
  cases new with
  | none => exact { hs with flow := hflow, producerMain := hmain }
  | some p =>
    obtain ⟨hok, hnum, hsum⟩ := Producer.fork (hs.producer p) (hnew p rfl)
    have hn := tally_update (Producer.numWritten prm) s.prod p { s.prod p with pc := .loop }
    have hσ := tally_update Producer.sumWritten s.prod p { s.prod p with pc := .loop }
    refine { hs with flow := hflow, producer := ?_, producerMain := ?_, numWritten := ?_,
                     sumWritten := ?_ }
    · exact (Function.forall_update_iff s.prod fun _ u => u.Ok prm).mpr
        ⟨hok, fun q _ => hs.producer q⟩
    · show ForkWait.Inv parent (Producer.status ∘ update s.prod p _)
      rw [Function.comp_update]
      exact hmain
    · rw [hnum] at hn
      exact (Nat.add_right_cancel hn).trans hs.numWritten
    · rw [hsum] at hσ
      exact (add_right_cancel hσ).trans hs.sumWritten

theorem Books.of_consumerMain {child : Option (Fin prm.numConsumers)} (hs : Books s)
    (hflow : Flow s') (h : ValueFifo.consumerMain s child = some s') : Books s' := by
  obtain ⟨parent, new, hstep, rfl⟩ := consumerMain_step h
  obtain ⟨hmain, hnew⟩ := hs.consumerMain.step (fun c => (hs.consumer c).not_failed) hstep
  cases new with
  | none => exact { hs with flow := hflow, consumerMain := hmain }
  | some c =>
    obtain ⟨hok, hnum, hsum⟩ := Consumer.fork (hs.consumer c) (hnew c rfl)
    have hn := tally_update (Consumer.numRead prm) s.cons c { s.cons c with pc := .loop }
    have hσ := tally_update Consumer.sumRead s.cons c { s.cons c with pc := .loop }
    refine { hs with flow := hflow, consumer := ?_, consumerMain := ?_, numRead := ?_,
                     sumRead := ?_ }
    · exact (Function.forall_update_iff s.cons fun _ u => u.Ok prm).mpr
        ⟨hok, fun d _ => hs.consumer d⟩
    · show ForkWait.Inv parent (Consumer.status ∘ update s.cons c _)
      rw [Function.comp_update]
      exact hmain
    · rw [hnum] at hn
      exact (Nat.add_right_cancel hn).trans hs.numRead
    · rw [hsum] at hσ
      exact (add_right_cancel hσ).trans hs.sumRead

theorem books
    (htotal : prm.numProducers * prm.opsPerProducer = prm.numConsumers * prm.opsPerConsumer)
    (h : (program prm).Reachable s) : Books s := by
  refine h.invariant (I := Books) ?_ ?_
  · rintro s ⟨value, rfl⟩
    have hzero : ∀ {ι β M : Type} [Fintype ι] [AddCommMonoid M] (f : β → M) (g : ι → β),
        (∀ i, f (g i) = 0) → tally f g = 0 :=
      fun f g hf => Finset.sum_eq_zero fun i _ => hf i
    refine ⟨flow (.init ⟨value, rfl⟩), fun p => le_rfl, fun c => le_rfl,
      ForkWait.inv_start fun p => rfl, ForkWait.inv_start fun c => rfl, ?_, ?_, ?_, ?_⟩
    · exact hzero _ _ fun p => Nat.sub_self _
    · exact hzero _ _ fun c => Nat.sub_self _
    · exact hzero _ _ fun p => rfl
    · exact hzero _ _ fun c => rfl
  · intro s t s' hr hs hstep
    have hflow := flow (hr.step t hstep)
    cases t with
    | producer p rand ret => exact (producer_step hstep).books htotal hs
    | consumer c ret => exact (consumer_step hstep).books htotal hs
    | producerMain child => exact hs.of_producerMain hflow hstep
    | consumerMain child => exact hs.of_consumerMain hflow hstep

/-! ### Nobody waits for ever -/

/-- All processes have finished: the children have exited, and so have their parents. -/
structure State.AllDone (s : State prm) : Prop where
  producer : ∀ p, (s.prod p).pc = .exited
  consumer : ∀ c, (s.cons c).pc = .exited
  producerMain : s.producerMain.pc = .exited true
  consumerMain : s.consumerMain.pc = .exited true

/-- A forked producer that cannot move has exited, or finds no room in the FIFO. -/
theorem producer_eq_none (hs : Books s) (hnew : (s.prod p).status ≠ .notForked)
    (h : producer s p 0 (.moved 4) = none) :
    (s.prod p).pc = .exited ∨ prm.capacity < s.fifo.length + 4 := by
  unfold producer at h
  cases hpc : (s.prod p).pc <;> simp only [hpc] at h
  case notForked => exact absurd (by rw [Producer.status, hpc]) hnew
  case loop => cases h
  case writing v n =>
    rcases hs.flow.writing p v n hpc with rfl | rfl
    · rw [if_pos (by decide)] at h
      split at h
      · split at h
        · cases h
        · omega
      · cases h
    · cases h
  case exited => exact .inl rfl
  case failed => exact absurd (by rw [Producer.status, hpc]) (hs.producer p).not_failed

/-- A FIFO with less than a value is empty. -/
theorem Flow.fifo_eq_nil (hs : Flow s) (hlt : s.fifo.length < 4) : s.fifo = [] := by
  obtain ⟨rest, -, hfifo⟩ := hs.values
  rw [hfifo, length_flatMap_intBytes] at hlt
  have hrest : rest = [] := List.length_eq_zero_iff.mp (by omega)
  rw [hfifo, hrest]
  rfl

/-- A forked consumer that cannot move has exited, or finds the FIFO empty. -/
theorem consumer_eq_none (hs : Books s) (hnew : (s.cons c).status ≠ .notForked)
    (h : consumer s c (.moved 4) = none) :
    (s.cons c).pc = .exited ∨ (s.cons c).pc = .reading 0 ∧ s.fifo = [] := by
  unfold consumer at h
  cases hpc : (s.cons c).pc <;> simp only [hpc] at h
  case notForked => exact absurd (by rw [Consumer.status, hpc]) hnew
  case loop => cases h
  case reading n =>
    rcases hs.flow.reading c n hpc with rfl | rfl
    · rw [if_pos (by decide)] at h
      split at h
      · cases h
      · exact .inr ⟨rfl, hs.flow.fifo_eq_nil (by omega)⟩
    · cases h
  case exited => exact .inl rfl
  case failed => exact absurd (by rw [Consumer.status, hpc]) (hs.consumer c).not_failed

/-- **No deadlock**: with equal totals, when nobody can move, all processes have finished. -/
theorem Books.allDone_of_quiescent
    (htotal : prm.numProducers * prm.opsPerProducer = prm.numConsumers * prm.opsPerConsumer)
    (hcapacity : 4 ≤ prm.capacity) (hs : Books s)
    (hq : (program prm).Quiescent Agent.isMoved s) : s.AllDone := by
  have hproducerMain : ∀ child, parentStep s.producerMain (fun p => (s.prod p).status) child
      = none := fun child => Option.map_eq_none_iff.mp (hq (.producerMain child) rfl)
  have hconsumerMain : ∀ child, parentStep s.consumerMain (fun c => (s.cons c).status) child
      = none := fun child => Option.map_eq_none_iff.mp (hq (.consumerMain child) rfl)
  have hprod : ∀ p, (s.prod p).pc = .exited ∨ prm.capacity < s.fifo.length + 4 := fun p =>
    producer_eq_none hs (hs.producerMain.ne_notForked_of_stuck hproducerMain p)
      (hq (.producer p 0 (.moved 4)) rfl)
  have hcons : ∀ c, (s.cons c).pc = .exited ∨ (s.cons c).pc = .reading 0 ∧ s.fifo = [] := fun c =>
    consumer_eq_none hs (hs.consumerMain.ne_notForked_of_stuck hconsumerMain c)
      (hq (.consumer c (.moved 4)) rfl)
  -- the consumers would read on from a FIFO that is not empty
  have hempty : s.fifo = [] := by
    by_contra hne
    have hread := hs.read_eq fun c => by
      rw [Consumer.status, (hcons c).resolve_right fun h => hne h.2]
    have hle := hs.written_le
    obtain ⟨rest, hwritten, hfifo⟩ := hs.flow.values
    rw [hwritten, List.length_append] at hle
    have hrest : rest = [] := List.length_eq_zero_iff.mp (by omega)
    rw [hfifo, hrest] at hne
    exact hne rfl
  have hproducers : ∀ p, (s.prod p).pc = .exited := by
    intro p
    refine (hprod p).resolve_right ?_
    rw [hempty, List.length_nil]
    omega
  have hwritten := hs.written_eq fun p => by rw [Producer.status, hproducers p]
  have hconsumers : ∀ c, (s.cons c).pc = .exited := by
    intro c
    refine (hcons c).resolve_right fun h => ?_
    have hlt := hs.numRead_lt h.1 (by decide)
    rw [hs.read_eq_written hempty] at hlt
    omega
  refine ⟨hproducers, hconsumers, ?_, ?_⟩
  · exact hs.producerMain.exited_of_stuck hproducerMain fun p => by
      rw [Producer.status, hproducers p]
  · exact hs.consumerMain.exited_of_stuck hconsumerMain fun c => by
      rw [Consumer.status, hconsumers c]

/-- When all children have exited, the sums agree. -/
theorem Books.sums_eq
    (htotal : prm.numProducers * prm.opsPerProducer = prm.numConsumers * prm.opsPerConsumer)
    (hs : Books s) (hproducers : ∀ p, (s.prod p).pc = .exited)
    (hconsumers : ∀ c, (s.cons c).pc = .exited) :
    ∑ c, (s.cons c).localSum = ∑ p, (s.prod p).localSum := by
  have hwritten := hs.written_eq fun p => by rw [Producer.status, hproducers p]
  have hread := hs.read_eq fun c => by rw [Consumer.status, hconsumers c]
  obtain ⟨rest, hrest, -⟩ := hs.flow.values
  have hnil : rest = [] := by
    rw [hrest, List.length_append] at hwritten
    exact List.length_eq_zero_iff.mp (by omega)
  calc ∑ c, (s.cons c).localSum
      = tally Consumer.sumRead s.cons := Finset.sum_congr rfl fun c _ => by
        rw [Consumer.sumRead, hconsumers c]
    _ = s.read.sum := hs.sumRead
    _ = s.written.sum := by rw [hrest, hnil, List.append_nil]
    _ = tally Producer.sumWritten s.prod := hs.sumWritten.symm
    _ = ∑ p, (s.prod p).localSum := Finset.sum_congr rfl fun p _ => by
        rw [Producer.sumWritten, hproducers p]

/-- **The orderly end**: with equal totals no `read` finds the end of the file and no `write`
a FIFO without readers, nobody is stuck before all have finished, and the sums agree. -/
theorem orderly_end (prm : Params)
    (htotal : prm.numProducers * prm.opsPerProducer = prm.numConsumers * prm.opsPerConsumer)
    (hcapacity : 4 ≤ prm.capacity) (s : State prm) (h : (program prm).Reachable s) :
    (∀ c n, (s.cons c).pc = .reading n → n < 4 → s.fifo = [] → s.writeOpen) ∧
      (∀ p v n, (s.prod p).pc = .writing v n → n < 4 → s.readOpen) ∧
      ((program prm).Quiescent Agent.isMoved s → s.AllDone) ∧
      (s.AllDone → ∑ c, (s.cons c).localSum = ∑ p, (s.prod p).localSum) := by
  have hs := books htotal h
  refine ⟨?_, ?_, ?_, ?_⟩
  · intro c n hpc hn hempty
    exact hs.writeOpen htotal hpc hn hempty
  · intro p v n hpc hn
    exact hs.readOpen htotal hpc hn
  · intro hq
    exact hs.allDone_of_quiescent htotal hcapacity hq
  · intro hdone
    exact hs.sums_eq htotal hdone.producer hdone.consumer

/-- A whole run of two producers and two consumers. -/
theorem orderly_end_pairs : ∃ s, (program pairs).Reachable s ∧ s.AllDone ∧ s.written.length = 4 ∧
    ∑ c, (s.cons c).localSum = ∑ p, (s.prod p).localSum := by
  have hrun : ((program pairs).run (start fun _ _ => 0) (forkSchedule
      ++ crossSchedule ⟨0, by decide⟩ ⟨1, by decide⟩ ⟨0, by decide⟩ ⟨1, by decide⟩
      ++ crossSchedule ⟨1, by decide⟩ ⟨0, by decide⟩ ⟨0, by decide⟩ ⟨1, by decide⟩
      ++ [.producer ⟨0, by decide⟩ 0 .eintr, .producer ⟨1, by decide⟩ 0 .eintr,
        .consumer ⟨0, by decide⟩ .eintr, .consumer ⟨1, by decide⟩ .eintr,
        .producerMain (some ⟨1, by decide⟩), .producerMain (some ⟨0, by decide⟩),
        .producerMain none, .producerMain none, .consumerMain (some ⟨0, by decide⟩),
        .consumerMain (some ⟨1, by decide⟩), .consumerMain none, .consumerMain none])).map
        (fun s => (decide (∀ p, (s.prod p).pc = .exited), decide (∀ c, (s.cons c).pc = .exited),
          s.producerMain.pc, s.consumerMain.pc, s.written.length))
      = some (true, true, .exited true, .exited true, 4) := by
    decide
  obtain ⟨s, hs, hall⟩ := Option.map_eq_some_iff.mp hrun
  simp only [Prod.mk.injEq, decide_eq_true_eq] at hall
  obtain ⟨hprod, hcons, hproducers, hconsumers, hlen⟩ := hall
  have hreach := (Machine.Reachable.init (M := program pairs) ⟨_, rfl⟩).run hs
  have hdone : s.AllDone := ⟨hprod, hcons, hproducers, hconsumers⟩
  exact ⟨s, hreach, hdone, hlen, (orderly_end pairs rfl (by decide) s hreach).2.2.2 hdone⟩

end ValueFifo
