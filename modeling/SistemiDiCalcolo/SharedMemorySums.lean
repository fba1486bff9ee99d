/-
When the two programs of `Lab05/src/02` hand over what was produced.

`initMemory` starts `read_index` at `BUFFER_SIZE-1` and `write_index` at 0, and
`consume` moves `read_index` after the load.  So the consumers load one cell
behind the producers, unless the ring has a single cell.

* `Correct` — the queue discipline, and the equality of the sums at the end;
* `exists_stale_load` — with two cells or more, a run whose first load returns
  the 0 of the empty memory;
* `correct_iff` — the programs are correct exactly with a single cell, or with
  nothing to do.
-/
import SistemiDiCalcolo.SharedMemoryRing

open Function (update)
open SemRing (Phase)

namespace SharedMemory

section Correct

variable {prm : Params} {s : State prm}

/-- All processes have left their loop. -/
def State.AllDone (s : State prm) : Prop :=
  (∀ p, (s.prod p).pc = .done) ∧ ∀ c, (s.cons c).pc = .done

/-- The `k`-th value loaded is the `k`-th value stored; a cell about to be loaded
holds an unread value and a cell about to be stored to does not; at the end the
sums of both sides agree. -/
structure Correct (s : State prm) : Prop where
  fifo : loads s.trace <+: stores s.trace
  load_full : ∀ c i, (s.cons c).pc = .load i → s.full i = true
  store_free : ∀ p i, (s.prod p).pc = .store i → s.full i = false
  sums : s.AllDone → ∑ c, (s.cons c).localSum = ∑ p, (s.prod p).localSum

/-! ### The sums at the end -/

theorem Accounts.sum_loads_of_done (hs : Accounts s) (hdone : s.AllDone) :
    ∑ c, (s.cons c).localSum = (loads s.trace).sum := by
  have h := sum_loads id s.trace
  simp only [List.map_id] at h
  rw [h]
  refine Finset.sum_congr rfl fun c _ => ?_
  rw [← (hs.cons c).sum, Consumer.pending, hdone.2 c, add_zero]

theorem Accounts.sum_stores_of_done (hs : Accounts s) (hdone : s.AllDone) :
    ∑ p, (s.prod p).localSum = (stores s.trace).sum := by
  have h := sum_stores id s.trace
  simp only [List.map_id] at h
  rw [h]
  refine Finset.sum_congr rfl fun p _ => ?_
  rw [← (hs.prod p).sum, Producer.pending, hdone.1 p, add_zero]

/-- When all processes are done, as many values have been loaded as stored. -/
theorem Accounts.length_eq_of_done (hs : Accounts s) (hdone : s.AllDone)
    (htotal : ∑ p, (prm.values p).length = ∑ c, prm.numOps c) :
    (loads s.trace).length = (stores s.trace).length := by
  rw [length_loads, length_stores]
  calc ∑ c, (loadsOf c s.trace).length
      = ∑ c, prm.numOps c := Finset.sum_congr rfl fun c _ => by
        have hok := (hs.cons c).coherent
        rw [Consumer.Coherent, hdone.2 c] at hok
        rw [← (hs.cons c).ops, Consumer.toLoad, hdone.2 c, hok, Nat.add_zero]
    _ = ∑ p, (prm.values p).length := htotal.symm
    _ = ∑ p, (storesOf p s.trace).length := Finset.sum_congr rfl fun p _ => by
        have hok := (hs.prod p).coherent
        rw [Producer.Coherent, hdone.1 p] at hok
        rw [← (hs.prod p).ops, Producer.toStore, hdone.1 p, hok, List.append_nil]

/-- Under the queue discipline the sums agree at the end. -/
theorem Accounts.sums (hs : Accounts s)
    (htotal : ∑ p, (prm.values p).length = ∑ c, prm.numOps c)
    (hfifo : loads s.trace <+: stores s.trace) (hdone : s.AllDone) :
    ∑ c, (s.cons c).localSum = ∑ p, (s.prod p).localSum := by
  rw [hs.sum_loads_of_done hdone, hs.sum_stores_of_done hdone,
    hfifo.eq_of_length (hs.length_eq_of_done hdone htotal)]

/-! ### A single cell, or nothing to do -/

theorem correct_of_one (htotal : ∑ p, (prm.values p).length = ∑ c, prm.numOps c)
    (hB : prm.bufferSize = 1) (h : (program prm).Reachable s) : Correct s := by
  have hinv := ring_inv hB h
  have hfifo := hinv.contents.fifo.loads_prefix_stores
  refine ⟨hfifo, fun c i hc => ?_, fun p i hp => ?_, (accounts h).sums htotal hfifo⟩
  · refine hinv.load_full (c := c) ?_
    show (s.cons c).pc.phase = _
    rw [hc]
    rfl
  · refine hinv.store_free (p := p) ?_
    show (s.prod p).pc.phase = _
    rw [hp]
    rfl

theorem correct_of_no_ops (htotal : ∑ p, (prm.values p).length = ∑ c, prm.numOps c)
    (hops : ∀ c, prm.numOps c = 0) (h : (program prm).Reachable s) : Correct s := by
  have hacc := accounts h
  -- the totals agree, so the producers have nothing to store either
  have hvalues : ∀ p, prm.values p = [] := by
    simp only [hops, Finset.sum_const_zero, Finset.sum_eq_zero_iff, Finset.mem_univ,
      true_implies, List.length_eq_zero_iff] at htotal
    exact htotal
  have hnone : loads s.trace = [] := by
    rw [← List.length_eq_zero_iff, length_loads]
    refine Finset.sum_eq_zero fun c _ => ?_
    have := (hacc.cons c).ops
    rw [hops c] at this
    omega
  have hfifo : loads s.trace <+: stores s.trace := hnone ▸ List.nil_prefix
  refine ⟨hfifo, fun c i hc => ?_, fun p i hp => ?_, hacc.sums htotal hfifo⟩
  · have hown := (hacc.cons c).ops
    have hok := (hacc.cons c).coherent
    rw [Consumer.Coherent, hc] at hok
    rw [Consumer.toLoad, hc, hops c] at hown
    simp only at hok hown
    omega
  · have hown := (hacc.prod p).ops
    have hok := (hacc.prod p).coherent
    rw [Producer.Coherent, hp] at hok
    rw [Producer.toStore, hp, hvalues p, List.append_eq_nil_iff] at hown
    simp only at hok hown
    rw [hown.2] at hok
    cases hok

/-! ### Two cells or more -/

/-- A producer stores its first value and gives the token. -/
theorem run_store {p : Fin prm.numProducers} {v x y : CInt} {rest : List CInt}
    (hp : s.prod p = ⟨.loop, v :: rest, x, y⟩) (he : 0 < s.semEmpty)
    (hcs : 0 < s.semCs .producers) :
    (program prm).run s (List.replicate 9 (.producer p)) = some
      { s with
        semEmpty := s.semEmpty - 1
        semCs := update (update s.semCs .producers (s.semCs .producers - 1)) .producers
          (s.semCs .producers - 1 + 1)
        semFilled := s.semFilled + 1
        buf := update s.buf s.writeIndex v
        full := update s.full s.writeIndex true
        writeIndex := (s.writeIndex + 1) % prm.bufferSize
        prod := update s.prod p ⟨.next, v :: rest, v, y⟩
        trace := s.trace ++ [.store p v] } := by
  simp [List.replicate, Machine.run, program, processStep, produce, hp, he, hcs]

/-- A consumer loads from the cell at `read_index`. -/
theorem run_load {c : Fin prm.numConsumers} {n : ℕ} {x y : CInt}
    (hc : s.cons c = ⟨.loop, n, x, y⟩) (hn : 0 < n) (hf : 0 < s.semFilled)
    (hcs : 0 < s.semCs .consumers) :
    (program prm).run s (List.replicate 5 (.consumer c)) = some
      { s with
        semFilled := s.semFilled - 1
        semCs := update s.semCs .consumers (s.semCs .consumers - 1)
        full := update s.full s.readIndex false
        cons := update s.cons c ⟨.refetch, n, s.buf s.readIndex, y⟩
        trace := s.trace ++ [.load c (s.buf s.readIndex)] } := by
  simp [List.replicate, Machine.run, program, processStep, consume, hc, hn, hf, hcs]

/-- With two cells or more, the first value loaded is the 0 in the last cell. -/
theorem exists_stale_load {p : Fin prm.numProducers} {c : Fin prm.numConsumers} {v : CInt}
    {rest : List CInt} (hB : 1 < prm.bufferSize) (hp : prm.values p = v :: rest)
    (hc : 0 < prm.numOps c) :
    ∃ s, (program prm).Reachable s ∧ s.trace = [.store p v, .load c 0] := by
  have hstart : (mainState prm).prod p = ⟨.loop, v :: rest, 0, 0⟩ := by
    rw [← hp]
    rfl
  have hstore := run_store hstart prm.bufferSize_pos Nat.one_pos
  refine ⟨_, (Machine.Reachable.init rfl).run hstore |>.run
    (run_load (c := c) rfl hc (Nat.succ_pos _) Nat.one_pos), ?_⟩
  have hlast : update (mainState prm).buf 0 v (prm.bufferSize - 1) = 0 := by
    rw [Function.update_of_ne (by omega)]
    rfl
  show [Event.store p v, Event.load c (update (mainState prm).buf 0 v (prm.bufferSize - 1))] = _
  rw [hlast]

/-- The values that `performRandomTransaction` generates are not 0. -/
theorem ne_zero_of_random {rands : Fin prm.numProducers → List ℕ}
    (hvalues : ∀ p, prm.values p = (rands p).map performRandomTransaction) :
    ∀ p, ∀ v ∈ prm.values p, v ≠ 0 := by
  intro p v hv
  rw [hvalues p] at hv
  obtain ⟨rand, -, rfl⟩ := List.mem_map.mp hv
  exact performRandomTransaction_ne_zero rand

theorem exists_not_fifo (hne : ∀ p, ∀ v ∈ prm.values p, v ≠ 0)
    (htotal : ∑ p, (prm.values p).length = ∑ c, prm.numOps c) (hB : prm.bufferSize ≠ 1)
    (hops : ¬ ∀ c, prm.numOps c = 0) :
    ∃ s, (program prm).Reachable s ∧ ¬ loads s.trace <+: stores s.trace := by
  obtain ⟨c, hc⟩ := not_forall.mp hops
  obtain ⟨p, -, hp⟩ : ∃ p ∈ Finset.univ, (prm.values p).length ≠ 0 := by
    refine Finset.exists_ne_zero_of_sum_ne_zero ?_
    rw [htotal]
    exact fun hzero => hc (Finset.sum_eq_zero_iff.mp hzero c (Finset.mem_univ c))
  obtain ⟨v, rest, hv⟩ := List.exists_cons_of_length_pos (Nat.pos_of_ne_zero hp)
  have hpos := prm.bufferSize_pos
  obtain ⟨s, hs, htrace⟩ := exists_stale_load (by omega) hv (Nat.pos_of_ne_zero hc)
  refine ⟨s, hs, fun hfifo => ?_⟩
  rw [htrace] at hfifo
  have hv₀ : v ≠ 0 := hne p v (hv ▸ List.mem_cons_self ..)
  exact hv₀ (List.cons_prefix_cons.mp hfifo).1.symm

end Correct

/-- **The consumers get what the producers stored exactly when the ring has one
cell or there is nothing to do.**  The same holds of the order of the values
alone. -/
theorem correct_iff (prm : Params) (htotal : ∑ p, (prm.values p).length = ∑ c, prm.numOps c)
    (hne : ∀ p, ∀ v ∈ prm.values p, v ≠ 0) :
    ((∀ s, (program prm).Reachable s → Correct s) ↔
      prm.bufferSize = 1 ∨ ∀ c, prm.numOps c = 0) ∧
    ((∀ s, (program prm).Reachable s → loads s.trace <+: stores s.trace) ↔
      prm.bufferSize = 1 ∨ ∀ c, prm.numOps c = 0) := by
  have hcorrect : (prm.bufferSize = 1 ∨ ∀ c, prm.numOps c = 0) →
      ∀ s, (program prm).Reachable s → Correct s := by
    rintro (hB | hops) s hs
    · exact correct_of_one htotal hB hs
    · exact correct_of_no_ops htotal hops hs
  have hfifo : (∀ s, (program prm).Reachable s → loads s.trace <+: stores s.trace) →
      prm.bufferSize = 1 ∨ ∀ c, prm.numOps c = 0 := by
    intro h
    by_contra hcond
    obtain ⟨hB, hops⟩ := not_or.mp hcond
    obtain ⟨s, hs, hbad⟩ := exists_not_fifo hne htotal hB hops
    exact hbad (h s hs)
  exact ⟨⟨fun h => hfifo fun s hs => (h s hs).fifo, hcorrect⟩,
    ⟨hfifo, fun h s hs => (hcorrect h s hs).fifo⟩⟩

/-- A producer of 7, a consumer, and a buffer of two cells. -/
abbrev oneSeven : Params where
  numProducers := 1
  numConsumers := 1
  bufferSize := 2
  bufferSize_pos := Nat.two_pos
  values _ := [7]
  numOps _ := 1

theorem correct_iff_one_seven :
    (∀ s, (program oneSeven).Reachable s → Correct s) ↔ (2 = 1 ∨ ∀ c, oneSeven.numOps c = 0) :=
  (correct_iff oneSeven rfl (by simp)).1

/-- The producer runs to its end and the consumer after it. -/
theorem one_seven_run :
    ∃ s, (program oneSeven).Reachable s ∧ s.AllDone ∧ s.trace = [.store 0 7, .load 0 0] := by
  refine ⟨_, Machine.reachable_iff_run.mpr
    ⟨_, List.replicate 11 (.producer 0) ++ List.replicate 11 (.consumer 0), rfl, rfl⟩,
    ⟨fun p => ?_, fun c => ?_⟩, rfl⟩
  · rw [Subsingleton.elim p 0]
    rfl
  · rw [Subsingleton.elim c 0]
    rfl

/-- 7 is stored and 0 is loaded, and so are the sums. -/
theorem one_seven_loads_zero :
    ∃ s, (program oneSeven).Reachable s ∧ s.AllDone ∧
      ¬ loads s.trace <+: stores s.trace ∧
      ∑ c, (s.cons c).localSum ≠ ∑ p, (s.prod p).localSum := by
  obtain ⟨s, hs, hdone, htrace⟩ := one_seven_run
  refine ⟨s, hs, hdone, ?_, ?_⟩
  · rw [htrace]
    show ¬ [(0 : CInt)] <+: [7]
    simp
  · rw [(accounts hs).sum_loads_of_done hdone, (accounts hs).sum_stores_of_done hdone, htrace]
    show [(0 : CInt)].sum ≠ [(7 : CInt)].sum
    simp

end SharedMemory
