/-
The balance reports of the producer/consumer programs.

A consumer reports the balance when `read_index`, after its update, is a multiple of 100; the
message says that this is so after the last 100 transactions.

* `State.settled` — the number of transactions consumed, with the report that may follow;
* `due` — after which of them `read_index` is a multiple of 100;
* `reported` — these are the ones with a report, in every reachable state;
* `reports_every_hundred_iff` — they are the multiples of 100 exactly if 100 divides `BUFFER_SIZE`,
  or the ring has not been round;
* `reports_balance` — the balance reported is the one after all transactions so far.
-/
import SistemiDiCalcolo.ProducerConsumerEnd

open Function (update)

namespace ProducerConsumer

/-- 1 from the load of a transaction to the test that follows, or its report. -/
def Consumer.unreported (t : Consumer) : ℕ :=
  match t.pc with
  | .loadDeposit _ | .storeDeposit _ _ | .refetch | .advance _ | .test | .report => 1
  | _ => 0

/-- The numbers from 1 to `T` at which the index of a ring of `B` cells is a multiple
of 100. -/
def due (B T : ℕ) : List ℕ := (List.range' 1 T).filter fun k => k % B % 100 = 0

theorem due_succ (B T : ℕ) :
    due B (T + 1) = due B T ++ if (T + 1) % B % 100 = 0 then [T + 1] else [] := by
  rw [due, List.range'_1_concat, List.filter_append, Nat.add_comm 1 T, List.filter_singleton, due]
  simp

/-- They are the multiples of 100 exactly if the wraps of the ring come at multiples of 100, or
there is none yet. -/
theorem due_eq_iff {B T : ℕ} (hB : 0 < B) :
    due B T = (List.range' 1 T).filter (fun k => k % 100 = 0) ↔ 100 ∣ B ∨ T < B := by
  constructor
  · intro heq
    by_contra hnot
    obtain ⟨hdvd, hlt⟩ := not_or.mp hnot
    -- the first wrap
    have hmem : B ∈ due B T := by
      rw [due, List.mem_filter, List.mem_range'_1, Nat.mod_self]
      exact ⟨by omega, rfl⟩
    rw [heq, List.mem_filter] at hmem
    exact hdvd (Nat.dvd_of_mod_eq_zero (of_decide_eq_true hmem.2))
  · intro hor
    refine List.filter_congr fun k hk => ?_
    rw [List.mem_range'_1] at hk
    rcases hor with hdvd | hlt
    · rw [Nat.mod_mod_of_dvd k hdvd]
    · have hsmall : k % B = k := Nat.mod_eq_of_lt (by omega)
      rw [hsmall]

section Reports

variable {prm : Params} {μ : Type} {s s' : State prm μ}

/-- The number of transactions consumed, but for one that may still be reported. -/
def State.settled (s : State prm μ) : ℕ :=
  (loads s.trace).length - tally Consumer.unreported s.cons

theorem State.AllDone.settled (h : s.AllDone) : s.settled = (loads s.trace).length := by
  have hnone : tally Consumer.unreported s.cons = 0 :=
    tally_eq_zero.mpr fun c => by rw [Consumer.unreported, h.2 c]
  rw [State.settled, hnone, Nat.sub_zero]

/-- The transactions with a report are the ones with `read_index` a multiple of 100. -/
structure Reported (s : State prm μ) : Prop where
  fst : s.reports.map Prod.fst = due prm.bufferSize s.settled
  le : tally Consumer.unreported s.cons ≤ (loads s.trace).length
  report : ∀ c, (s.cons c).pc = .report → (loads s.trace).length % prm.bufferSize % 100 = 0

theorem mainState_reported (n e : ℕ) : Reported (mainState prm μ n e) where
  fst := by simp [mainState, State.settled, due]
  le := (tally_eq_zero.mpr fun _ => rfl).le
  report c h := by simp [mainState] at h

/-- A consumer's move that reports nothing, and leaves nothing unreported behind. -/
theorem Reported.move (hs : Reported s) {c : Fin prm.numConsumers} {t : Consumer}
    (hcons : s'.cons = update s.cons c t) (hreports : s'.reports = s.reports)
    (hloads : (loads s'.trace).length + (s.cons c).unreported =
      (loads s.trace).length + t.unreported)
    (hothers : ∀ d, d ≠ c → (s.cons d).pc = .report → s'.trace = s.trace)
    (ht : t.pc = .report → (loads s'.trace).length % prm.bufferSize % 100 = 0) :
    Reported s' := by
  have htally := tally_update Consumer.unreported s.cons c t
  have hle := hs.le
  rw [← hcons] at htally
  refine ⟨?_, by omega, fun d hd => ?_⟩
  · rw [hreports, hs.fst, State.settled, State.settled]
    congr 1
    omega
  · rw [hcons] at hd
    by_cases hdc : d = c
    · rw [hdc, Function.update_self] at hd
      exact ht hd
    · rw [Function.update_of_ne hdc] at hd
      rw [hothers d hdc hd]
      exact hs.report d hd

variable [DecidableEq μ] {wr rd : μ}

/-- Only the consumer in the section has something to report. -/
theorem tally_unreported (h : (program prm wr rd).Reachable s) {c : Fin prm.numConsumers}
    (hin : (s.cons c).InSection) :
    tally Consumer.unreported s.cons = (s.cons c).unreported := by
  have hle : tally (fun t : Consumer => t.phase.inside) s.cons ≤ 1 :=
    (ring_inv h).ledger.inside_cons_le
  refine tally_eq_of_sole (fun t ht => ?_) hle hin.inside
  revert ht
  show t.pc.phase.inside = 0 → _
  unfold Consumer.unreported
  cases t.pc <;> simp [ConsumerPc.phase]

/-- A report is made in the section. -/
theorem not_report (h : (program prm wr rd).Reachable s) {c d : Fin prm.numConsumers}
    (hin : (s.cons c).InSection) (hdc : d ≠ c) : (s.cons d).pc ≠ .report := by
  intro hd
  have hind : (s.cons d).InSection := by rw [Consumer.InSection, hd]; trivial
  exact hdc (consumer_unique h hind hin)

/-- The test of `read_index` comes to its end, with a report if one is due. -/
theorem Reported.settle (h : (program prm wr rd).Reachable s) (hs : Reported s)
    {c : Fin prm.numConsumers} {t : Consumer} (hin : (s.cons c).InSection)
    (hc : (s.cons c).unreported = 1) (hcons : s'.cons = update s.cons c t)
    (htrace : s'.trace = s.trace) (ht : t.pc = .postMutex)
    (hreports : s'.reports.map Prod.fst = s.reports.map Prod.fst ++
      if (loads s.trace).length % prm.bufferSize % 100 = 0 then [(loads s.trace).length] else []) :
    Reported s' := by
  have htally := tally_update Consumer.unreported s.cons c t
  have hone := tally_unreported h hin
  have hle := hs.le
  have hnone : t.unreported = 0 := by rw [Consumer.unreported, ht]
  rw [← hcons] at htally
  refine ⟨?_, by omega, fun d hd => ?_⟩
  · obtain ⟨T, hT⟩ : ∃ T, (loads s.trace).length = T + 1 := Nat.exists_eq_succ_of_ne_zero (by omega)
    have hbefore : s.settled = T := by
      rw [State.settled]
      omega
    have hafter : s'.settled = T + 1 := by
      rw [State.settled, htrace]
      omega
    rw [hreports, hs.fst, hbefore, hafter, due_succ, hT]
  · rw [hcons] at hd
    by_cases hdc : d = c
    · rw [hdc, Function.update_self, ht] at hd
      cases hd
    · rw [Function.update_of_ne hdc] at hd
      exact absurd hd (not_report h hin hdc)

/-- A producer reports nothing. -/
theorem performTransactions_reports {p : Fin prm.numProducers}
    (h : performTransactions wr s p = some s') : s'.reports = s.reports := by
  cases producer_step h with
  | ended | produce | waitE | waitMutex | fetch | store | refetch | advance | postMutex | postN
  | next => rfl

/-- `read_index` at the test. -/
theorem readIndex_test (h : (program prm wr rd).Reachable s) {c : Fin prm.numConsumers}
    (hpc : (s.cons c).pc = .test) :
    s.readIndex = (loads s.trace).length % prm.bufferSize := by
  have hphase : s.ring.cons c = .advanced := by
    show (s.cons c).pc.phase = _
    rw [hpc]
    rfl
  exact (ring_inv h).indexes.read_eq (ring_inv h).ledger (by rw [hphase]; rfl)
    (by rw [hphase]; rfl)

theorem processTransactions_reported (h : (program prm wr rd).Reachable s) (hs : Reported s)
    {c : Fin prm.numConsumers} (hstep : processTransactions rd s c = some s') : Reported s' := by
  cases consumer_step hstep with
  | load i hpc =>
    have hin : (s.cons c).InSection := by rw [Consumer.InSection, hpc]; trivial
    refine hs.move rfl rfl ?_ (fun d hdc hd => ?_) (by simp)
    · simp [Consumer.unreported, hpc]
    · exact absurd hd (not_report h hin hdc)
  | due hpc hdue =>
    rw [readIndex_test h hpc] at hdue
    exact hs.move rfl rfl (by simp [Consumer.unreported, hpc]) (fun _ _ _ => rfl) fun _ => hdue
  | notDue hpc hnot =>
    have hin : (s.cons c).InSection := by rw [Consumer.InSection, hpc]; trivial
    rw [readIndex_test h hpc] at hnot
    refine hs.settle h hin (by simp [Consumer.unreported, hpc]) rfl rfl rfl ?_
    rw [if_neg hnot, List.append_nil]
  | report hpc =>
    have hin : (s.cons c).InSection := by rw [Consumer.InSection, hpc]; trivial
    refine hs.settle h hin (by simp [Consumer.unreported, hpc]) rfl rfl rfl ?_
    rw [if_pos (hs.report c hpc), List.map_append]
    rfl
  | ended hpc _ | round hpc _ | waitN hpc _ | waitMutex hpc _ | fetch hpc | loadDeposit v hpc
  | storeDeposit v d hpc | refetch hpc | advance i hpc | postMutex hpc | postE hpc | next hpc =>
    exact hs.move rfl rfl (by simp [Consumer.unreported, hpc]) (fun _ _ _ => rfl) (by simp)

/-- The reports are the ones of the ring, in every reachable state. -/
theorem reported (h : (program prm wr rd).Reachable s) : Reported s := by
  refine h.invariant (I := Reported) ?_ fun s t s' hr hs hstep => ?_
  · rintro s rfl
    exact mainState_reported ..
  · cases t with
    | producer p =>
      obtain ⟨hcons, -, -, hloads⟩ := performTransactions_frame hstep
      refine ⟨?_, ?_, fun c hc => ?_⟩
      · rw [performTransactions_reports hstep, State.settled, hcons, hloads]
        exact hs.fst
      · rw [hcons, hloads]
        exact hs.le
      · rw [hcons] at hc
        rw [hloads]
        exact hs.report c hc
    | consumer c => exact processTransactions_reported hr hs hstep

/-- What has been loaded stays; a step reports nothing, or the balance after all that has
been loaded. -/
theorem threadStep_reports (h : (program prm wr rd).Reachable s) {t : Thread prm}
    (hstep : threadStep wr rd s t = some s') :
    loads s.trace <+: loads s'.trace ∧ (s'.reports = s.reports ∨
      loads s'.trace = loads s.trace ∧ s'.reports = s.reports ++
        [((loads s.trace).length, prm.initialDeposit + (loads s.trace).sum)]) := by
  cases t with
  | producer p =>
    obtain ⟨-, -, -, hloads⟩ := performTransactions_frame hstep
    exact ⟨hloads ▸ List.prefix_rfl, .inl (performTransactions_reports hstep)⟩
  | consumer c =>
    cases consumer_step hstep with
    | load i _ => exact ⟨by rw [loads_append_load]; exact List.prefix_append _ _, .inl rfl⟩
    | report hpc =>
      have hin : (s.cons c).InSection := by rw [Consumer.InSection, hpc]; trivial
      refine ⟨List.prefix_rfl, .inr ⟨rfl, ?_⟩⟩
      have hnone : ∀ d, (s.cons d).inFlight = [] := by
        intro d
        by_cases hdc : d = c
        · rw [hdc, Consumer.inFlight, hpc]
        · exact inFlight_of_inSection h hin hdc
      rw [(balance h).deposit, (balance h).settled hnone]
    | ended | round | waitN | waitMutex | fetch | loadDeposit | storeDeposit | refetch | advance
    | due | notDue | postMutex | postE | next =>
      exact ⟨List.prefix_rfl, .inl rfl⟩

/-- A report shows the initial deposit and all transactions up to its own. -/
theorem reports_balance (h : (program prm wr rd).Reachable s) : ∀ r ∈ s.reports,
    r.1 ≤ (loads s.trace).length ∧
      r.2 = prm.initialDeposit + ((loads s.trace).take r.1).sum := by
  refine h.invariant (I := fun s => ∀ r ∈ s.reports, r.1 ≤ (loads s.trace).length ∧
    r.2 = prm.initialDeposit + ((loads s.trace).take r.1).sum) ?_ fun s t s' hr hs hstep => ?_
  · rintro s rfl r hr
    exact absurd hr List.not_mem_nil
  · obtain ⟨⟨rest, hrest⟩, hreports⟩ := threadStep_reports hr hstep
    -- the older reports are about a part that stays
    have hold : ∀ r ∈ s.reports, r.1 ≤ (loads s'.trace).length ∧
        r.2 = prm.initialDeposit + ((loads s'.trace).take r.1).sum := by
      intro r hmem
      obtain ⟨hle, hr⟩ := hs r hmem
      rw [← hrest, List.length_append, List.take_append_of_le_length hle]
      exact ⟨by omega, hr⟩
    rcases hreports with heq | ⟨hloads, heq⟩
    · rw [heq]
      exact hold
    · rw [heq]
      intro r hmem
      rcases List.mem_append.mp hmem with hmem | hnew
      · exact hold r hmem
      · rw [List.mem_singleton.mp hnew, hloads, List.take_length]
        exact ⟨le_rfl, rfl⟩

/-- Every program comes to its end. -/
theorem exists_allDone (prm : Params) (wr rd : μ)
    (htotal : ∑ p, (prm.values p).length = ∑ c, prm.numOps c) :
    ∃ s, (program prm wr rd).Reachable s ∧ s.AllDone ∧
      s.settled = ∑ c, prm.numOps c := by
  have hinit : (program prm wr rd).Reachable (mainState prm μ 0 prm.bufferSize) := .init rfl
  obtain ⟨s, hs, hquiet⟩ := hinit.exists_quiescent (P := fun _ => true)
    (μ := State.stepsLeft) fun s t s' hstep _ => stepsLeft_step hstep
  have hdone := allDone_of_stuck htotal hs fun t => hquiet t rfl
  exact ⟨s, hs, hdone, by rw [hdone.settled, length_loads_of_done hs hdone.2]⟩

/-- **The balance reports**: whatever the numbers of threads and the interleaving, the reports come
after the transactions with a multiple of 100 as number, each once and after no others, exactly if
100 divides `BUFFER_SIZE`, or fewer transactions than that have been consumed. -/
theorem reports_every_hundred_iff (prm : Params) (wr rd : μ) {s : State prm μ}
    (h : (program prm wr rd).Reachable s) :
    s.reports.map Prod.fst = (List.range' 1 s.settled).filter (fun k => k % 100 = 0) ↔
      100 ∣ prm.bufferSize ∨ s.settled < prm.bufferSize := by
  rw [(reported h).fst]
  exact due_eq_iff prm.bufferSize_pos

/-- Two threads on each side, a hundred transactions in each, and a ring of a hundred cells. -/
abbrev twoHundred : Params where
  numProducers := 2
  numConsumers := 2
  bufferSize := 100
  bufferSize_pos := Nat.succ_pos 99
  initialDeposit := 1000
  values _ := List.replicate 100 1
  numOps _ := 100

/-- A full run of them reports twice. -/
theorem reports_two_hundred : ∃ s, (producerConsumerNM twoHundred).Reachable s ∧ s.AllDone ∧
    s.reports.map Prod.fst = [100, 200] := by
  have htotal : ∑ p, (twoHundred.values p).length = ∑ c, twoHundred.numOps c := by simp
  obtain ⟨s, hs, hdone, hsettled⟩ :=
    exists_allDone twoHundred TwoMutexes.writeS TwoMutexes.readS htotal
  have hops : ∑ c, twoHundred.numOps c = 200 := by simp
  have hreports := (reports_every_hundred_iff twoHundred TwoMutexes.writeS TwoMutexes.readS
    hs).mpr (.inl dvd_rfl)
  refine ⟨s, hs, hdone, hreports.trans ?_⟩
  rw [hsettled, hops]
  decide

end Reports

/-! ### The program -/

theorem bufferSize_pos : 0 < 128 := Nat.succ_pos 127

/-- The numbers of `producer_consumer_n_m.c`. -/
abbrev fourHundred : Params where
  numProducers := 20
  numConsumers := 20
  bufferSize := 128
  bufferSize_pos := bufferSize_pos
  initialDeposit := 1000
  values _ := List.replicate 20 1
  numOps _ := 20

/-- The second report comes 28 transactions after the first one. -/
theorem reports_drift : ∃ s, (producerConsumerNM fourHundred).Reachable s ∧ s.AllDone ∧
    s.reports.map Prod.fst = [100, 128, 228, 256, 356, 384] ∧
    s.reports.map Prod.fst ≠ (List.range' 1 s.settled).filter (fun k => k % 100 = 0) := by
  have htotal : ∑ p, (fourHundred.values p).length = ∑ c, fourHundred.numOps c := by simp
  obtain ⟨s, hs, hdone, hsettled⟩ :=
    exists_allDone fourHundred TwoMutexes.writeS TwoMutexes.readS htotal
  have hops : ∑ c, fourHundred.numOps c = 400 := by simp
  have hreports : s.reports.map Prod.fst = [100, 128, 228, 256, 356, 384] := by
    rw [(reported hs).fst, hsettled, hops]
    decide
  refine ⟨s, hs, hdone, hreports, ?_⟩
  rw [hreports, hsettled, hops]
  decide

end ProducerConsumer
