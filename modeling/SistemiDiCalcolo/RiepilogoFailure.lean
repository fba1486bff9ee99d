/-
What becomes of the riepilogo programs once an `open` of the log has failed.

The process in whose thread it fails exits, and takes the token of `critical_section` along.  From
then on no thread gets to the log: a child whose threads have written can end its round and, if
`*data` is set, exit, but a child that has created a thread since waits for it for ever.

* `failure_inv` — the accounts of the start and of `wait`, with a child that may have failed;
* `child_process_halts` — what a child can still do when nobody gets into the critical section;
* `failure_left` — after the failure every step brings the standstill nearer;
* `halted_of_stuck` — who is where when nobody can move;
* `halts_after_failure` — the main process ends with an error, in every schedule that lets everybody
  go on, and without the statistics.
-/
import SistemiDiCalcolo.RiepilogoEnd

open Function (update)
open AccessLog Machine

namespace Riepilogo

variable {n m : ℕ} {v : Version} {s s' : State n m} {i k : Fin n} {j : Fin m}

/-! ### The accounts -/

/-- A child has a thread to fail in, if it has failed, and `wait` has not returned it yet unless
the main process has ended with it. -/
structure FailureInv (s : State n m) : Prop where
  counter : s.main.counter ≤ n
  start : s.childrenWaitForMain + tally (fun c : Child m => c.pc.passed) s.child
    = s.main.startGiven n
  returned : s.main ≠ .failed →
    tally (fun c : Child m => c.pc.returned) s.child = s.main.returned n
  reaped : s.main ≠ .failed → ∀ i status, (s.child i).pc = .reaped status → status = 0
  threads : ∀ i, (s.child i).pc.failed = 1 → 0 < m

theorem failureInv_start : FailureInv (start : State n m) where
  counter := startInv_start.counter
  start := startInv_start.start
  returned _ := startInv_start.returned
  reaped _ i status h := by cases h
  threads i h := by cases h

/-- A step of a child other than its `fork`, against the tokens it moves. -/
theorem FailureInv.of_child (hs : FailureInv s) {c : Child m}
    (hchild : s'.child = update s.child i c) (hmain : s'.main = s.main)
    (hstart : s'.childrenWaitForMain + c.pc.passed = s.childrenWaitForMain + (s.child i).pc.passed)
    (hreturned : c.pc.returned = (s.child i).pc.returned)
    (hreaped : ∀ status, c.pc = .reaped status → (s.child i).pc = .reaped status)
    (hthreads : c.pc.failed = 1 → 0 < m) : FailureInv s' := by
  have hstart₀ := hs.start
  refine ⟨hmain ▸ hs.counter, ?_, ?_, ?_, ?_⟩
  · have := tally_update (fun c : Child m => c.pc.passed) s.child i c
    rw [hchild, hmain]
    omega
  · intro hne
    have := tally_update (fun c : Child m => c.pc.returned) s.child i c
    have hreturned₀ := hs.returned (hmain ▸ hne)
    rw [hchild, hmain]
    omega
  · intro hne
    rw [hchild]
    exact (Function.forall_update_iff s.child fun _ c =>
      ∀ status, c.pc = .reaped status → status = 0).mpr
        ⟨fun status h => hs.reaped (hmain ▸ hne) i status (hreaped status h),
          fun k _ => hs.reaped (hmain ▸ hne) k⟩
  · rw [hchild]
    exact (Function.forall_update_iff s.child fun _ c => c.pc.failed = 1 → 0 < m).mpr
      ⟨hthreads, fun k _ => hs.threads k⟩

theorem FailureInv.main_process (hs : FailureInv s) (hinv : Inv s)
    (h : main_process v s = some s') : FailureInv s' := by
  obtain ⟨-, hstart, hreturned, hcounter, -⟩ := main_process_tokens h hs.counter
  have hstart₀ := hs.start
  have hmain : s.main ≠ .failed := by
    intro hmain
    simp only [Riepilogo.main_process, hmain] at h
    cases h
  have hreturned₀ := hs.returned hmain
  rcases main_process_child h with ⟨k, hfork, -, hk, hchild⟩ | ⟨hchild, -⟩
  · have hborn := (hinv.forked ⟨k, hk⟩).mpr (by rw [hfork]; exact le_rfl)
    refine ⟨hcounter, ?_, fun _ => ?_, fun _ => ?_, ?_⟩
    · rw [hchild, tally_fork (by rw [hborn]; rfl) rfl]
      omega
    · rw [hchild, tally_fork (by rw [hborn]; rfl) rfl]
      omega
    · rw [hchild]
      exact (Function.forall_update_iff s.child fun _ c =>
        ∀ status, c.pc = .reaped status → status = 0).mpr
          ⟨fun status h => (by cases h), fun i _ => hs.reaped hmain i⟩
    · rw [hchild]
      exact (Function.forall_update_iff s.child fun _ c => c.pc.failed = 1 → 0 < m).mpr
        ⟨fun h => (by cases h), fun i _ => hs.threads i⟩
  · refine ⟨hcounter, ?_, fun _ => ?_, fun _ => ?_, ?_⟩ <;> rw [hchild]
    · omega
    · omega
    · exact hs.reaped hmain
    · exact hs.threads

theorem FailureInv.child (hs : FailureInv s) (h : child v s i = some s') : FailureInv s' := by
  obtain ⟨ready, start, c, hc, rfl⟩ := child_eq_some.mp h
  obtain ⟨-, hstart, hreturned, hfailed⟩ := child_process_tokens hc
  refine hs.of_child rfl rfl hstart hreturned (fun status hpc => ?_) fun hf =>
    hs.threads i (hfailed ▸ hf)
  -- `child_process` does not get to where `wait` has returned it
  cases child_step hc with
  | waitStart hpc' _ => cases v <;> cases hpc
  | postReady hpc' | shmOpen hpc' | mmap hpc' | create j hj hpc' | created j hpc' _
  | join j hj hpc' _ | joined j hpc' _ | stop hpc' _ | again hpc' _ | cleanUp hpc' =>
    cases hpc

theorem FailureInv.thread (hs : FailureInv s) (h : thread s i j = some s') : FailureInv s' := by
  obtain ⟨sem, log, pc, -, rfl⟩ := thread_eq_some.mp h
  exact hs.of_child rfl rfl rfl rfl (fun _ => id) (hs.threads i)

/-- `wait` returns one more child, or the main process ends with an error. -/
theorem FailureInv.wait (hs : FailureInv s) (h : wait s i = some s') : FailureInv s' := by
  obtain ⟨k, status, hmain, hk, hpc, rfl⟩ := wait_eq_some.mp h
  have hstart₀ := hs.start
  have hreturned₀ := hs.returned (by rw [hmain]; simp)
  have hpassed : tally (fun c : Child m => c.pc.passed)
      (update s.child i { s.child i with pc := .reaped status })
      = tally (fun c : Child m => c.pc.passed) s.child := by
    have h := tally_update (fun c : Child m => c.pc.passed) s.child i
      { s.child i with pc := .reaped status }
    beta_reduce at h
    rw [hpc] at h
    exact Nat.add_right_cancel h
  have hreturned : tally (fun c : Child m => c.pc.returned)
      (update s.child i { s.child i with pc := .reaped status })
      = tally (fun c : Child m => c.pc.returned) s.child + 1 := by
    have h := tally_update (fun c : Child m => c.pc.returned) s.child i
      { s.child i with pc := .reaped status }
    beta_reduce at h
    rw [hpc] at h
    exact h
  rw [hmain] at hstart₀ hreturned₀
  refine ⟨?_, ?_, fun hne => ?_, fun hne => ?_, ?_⟩ <;> dsimp only at *
  · split_ifs
    · exact hk
    · exact Nat.zero_le n
  · rw [hpassed, hstart₀]
    split_ifs <;> rfl
  · split_ifs at hne ⊢ with hzero
    · rw [hreturned, hreturned₀]
      rfl
    · exact absurd rfl hne
  · split_ifs at hne with hzero
    · subst hzero
      refine (Function.forall_update_iff s.child fun _ c =>
        ∀ status, c.pc = .reaped status → status = 0).mpr ⟨fun status h => ?_, fun k _ => ?_⟩
      · cases h
        rfl
      · exact hs.reaped (by rw [hmain]; simp) k
    · exact absurd rfl hne
  · refine (Function.forall_update_iff s.child fun _ c => c.pc.failed = 1 → 0 < m).mpr
      ⟨fun hf => hs.threads i ?_, fun k _ => hs.threads k⟩
    rw [hpc]
    exact hf

theorem FailureInv.openFails (hs : FailureInv s) (hinv : Inv s) (h : openFails s i j = some s') :
    FailureInv s' := by
  unfold Riepilogo.openFails at h
  split at h <;> cases h
  next hopen =>
    have hborn : (s.child i).thread j ≠ .absent := by rw [hopen]; simp
    refine hs.of_child rfl rfl ?_ ?_ (fun status hpc => by cases hpc) fun _ => j.pos
    · rw [((hinv.ok i).running hborn).2.2]
      rfl
    · rcases (hinv.ok i).of_thread hborn with ⟨k, hpc⟩ | ⟨k, hpc⟩ <;> rw [hpc] <;> rfl

theorem failure_inv (h : (faulty v n m).Reachable s) : FailureInv s := by
  refine h.invariant ?_ fun s t s' hr hs hstep => ?_
  · rintro s rfl
    exact failureInv_start
  · have hinv := inv hr
    rcases t with (_ | i | i | ⟨i, j⟩) | ⟨i, j⟩
    · exact hs.main_process hinv hstep
    · exact hs.wait hstep
    · exact hs.child hstep
    · exact hs.thread hstep
    · exact hs.openFails hinv hstep

/-! ### What is left to do -/

/-- A thread of the child waits for the critical section. -/
def Child.Blocked (c : Child m) : Prop := ∃ j, c.thread j = .waitSem

instance (c : Child m) : Decidable c.Blocked := inferInstanceAs (Decidable (∃ _, _))

/-- A thread that is joined was not waiting. -/
theorem waits_update {thread : Fin m → ThreadPc} {l : Fin m} (hl : thread l = .done) :
    (∃ j, update thread l .absent j = .waitSem) ↔ ∃ j, thread j = .waitSem := by
  refine exists_congr fun j => ?_
  rcases eq_or_ne j l with rfl | hne
  · rw [Function.update_self, hl]
    exact iff_of_false (by simp) (by simp)
  · rw [Function.update_of_ne hne]

/-- The steps that a child has before it when nobody gets into the critical section: a round that
is to begin is the last one, and it is not the first one to end. -/
def Child.halts (c : Child m) : ℕ :=
  match c.pc with
  | .notForked => 4 * m + 20
  | .postReady => 4 * m + 19
  | .waitStart => 4 * m + 18
  | .shmOpen => 4 * m + 17
  | .mmap => 4 * m + 16
  | .create j => if c.Blocked ∨ j < m then 2 * m + 5 - j else 4 * m + 12
  | .join j => if c.Blocked then m + 4 - j else 4 * m + 11 - j
  | .test => 2 * m + 8
  | .cleanUp => 2
  | .exited _ => 1
  | .reaped _ => 0

/-- `child_process` with every step has less left. -/
theorem child_process_halts {ready start ready' start' : ℕ} {data : ℤ} {c c' : Child m}
    (h : child_process v ready start data c = some (ready', start', c')) (hc : c.Ok)
    (hm : 0 < m) : c'.halts < c.halts := by
  have hfilled := hc.filled
  have hcreated := hc.created_le
  have hlo := hc.lo_le
  cases child_step h with
  | create j hj hpc =>
    have hblocked : (⟨.create (j + 1), update c.thread ⟨j, hj⟩ .waitSem, c.rounds, c.passes⟩ :
        Child m).Blocked := ⟨⟨j, hj⟩, Function.update_self _ _ _⟩
    simp only [Child.halts, hpc, hj, or_true, if_true, if_pos (Or.inl hblocked)]
    omega
  | created j hpc hj =>
    rw [hpc, ChildPc.created] at hcreated
    obtain rfl : j = m := Nat.le_antisymm hcreated (Nat.le_of_not_lt hj)
    have hsame : ({ c with pc := .join 0 } : Child j).Blocked ↔ c.Blocked := Iff.rfl
    simp only [Child.halts, hpc, hsame, Nat.lt_irrefl, or_false]
    split_ifs <;> omega
  | join j hj hpc hdone =>
    have hsame : (⟨.join (j + 1), update c.thread ⟨j, hj⟩ .absent, c.rounds, c.passes⟩ :
        Child m).Blocked ↔ c.Blocked := waits_update hdone
    simp only [Child.halts, hpc, hsame]
    split_ifs <;> omega
  | joined j hpc hj =>
    rw [hpc, ChildPc.lo] at hlo
    have hnone : ¬ c.Blocked := by
      rintro ⟨l, hl⟩
      have hrange := (hfilled l).mp (by rw [hl]; simp)
      rw [hpc, ChildPc.lo, ChildPc.created] at hrange
      omega
    simp only [Child.halts, hpc, if_neg hnone]
    omega
  | waitStart hpc _ =>
    cases v <;> simp only [Child.halts, hpc, Version.afterStart, hm, or_true, if_true] <;> omega
  | mmap hpc | again hpc _ =>
    -- a round that begins is the last one
    simp only [Child.halts, hpc, hm, or_true, if_true]
    omega
  | postReady hpc | shmOpen hpc | stop hpc _ | cleanUp hpc =>
    simp only [Child.halts, hpc]
    omega

/-- What everybody has before him. -/
def State.halts (s : State n m) : ℕ := s.main.left n + tally Child.halts s.child

/-- No thread can move once a child has failed, nor can another `open` fail. -/
theorem thread_none_of_failed (hs : Inv s) (hi : (s.child i).pc.failed = 1) (k : Fin n)
    (j : Fin m) : thread s k j = none ∧ openFails s k j = none := by
  obtain ⟨hsem, hnobody, -⟩ := hs.lost hi
  have hout := hnobody k j
  unfold thread thread_function openFails
  rw [hsem]
  cases hpc : (s.child k).thread j <;> rw [hpc] at hout
  case opening | writing | closing | posting => cases hout
  all_goals simp

/-- **After the failure** every step has less left, and none changes the log. -/
theorem failure_left {t : Agent n m ⊕ Fin n × Fin m} (hr : (faulty v n m).Reachable s)
    (hi : (s.child i).pc.failed = 1) (h : (faulty v n m).step s t = some s') :
    s'.halts < s.halts ∧ s'.log = s.log := by
  have hs := inv hr
  have hm := (failure_inv hr).threads i hi
  rcases t with (_ | k | k | ⟨k, j⟩) | ⟨k, j⟩
  case inl.main =>
    refine ⟨?_, (main_process_frame h).1⟩
    have hleft := main_process_left h
    rcases main_process_child h with ⟨k, hfork, -, hk, hchild⟩ | ⟨hchild, -⟩
    · have hborn := (hs.forked ⟨k, hk⟩).mpr (by rw [hfork]; exact le_rfl)
      have htally := tally_update Child.halts s.child ⟨k, hk⟩ .start
      have hfork' : (s.child ⟨k, hk⟩).halts = 4 * m + 20 := by rw [Child.halts, hborn]
      have hstart : (Child.start : Child m).halts = 4 * m + 19 := rfl
      rw [State.halts, State.halts, hchild]
      omega
    · rw [State.halts, State.halts, hchild]
      omega
  case inl.reap =>
    obtain ⟨l, status, hmain, hl, hpc, rfl⟩ := wait_eq_some.mp h
    refine ⟨?_, rfl⟩
    have htally := tally_update Child.halts s.child k { s.child k with pc := .reaped status }
    simp only [Child.halts, hpc] at htally
    simp only [State.halts, hmain]
    split_ifs <;> simp only [MainPc.left] <;> omega
  case inl.child =>
    obtain ⟨ready, start, c, hc, rfl⟩ := child_eq_some.mp h
    refine ⟨?_, rfl⟩
    have htally := tally_update Child.halts s.child k c
    have hlt := child_process_halts hc (hs.ok k) hm
    simp only [State.halts]
    omega
  case inl.thread => cases (thread_none_of_failed hs hi k j).1.symm.trans h
  case inr => cases (thread_none_of_failed hs hi k j).2.symm.trans h

/-! ### The standstill -/

/-- A child that waits for a thread, which waits for the critical section. -/
def Child.WaitsForEver (c : Child m) : Prop :=
  ∃ j, ∃ hj : j < m, c.pc = .join j ∧ c.thread ⟨j, hj⟩ = .waitSem

/-- The main process has not come to the statistics, nor will it. -/
theorem main_of_failed (hr : (faulty v n m).Reachable s) (hi : (s.child i).pc.failed = 1) :
    s.main ≠ .parseOutput ∧ s.main ≠ .cleanUp ∧ s.main ≠ .done := by
  have hs := failure_inv hr
  have hreturned : s.main.returned n = n → s.main = .failed := by
    intro hmain
    by_contra hne
    have hall : (s.child i).pc.returned = 1 := by
      refine eq_one_of_card_le_tally (f := fun c : Child m => c.pc.returned)
        (fun c => by cases c.pc <;> simp) ?_ i
      rw [hs.returned hne, hmain, Fintype.card_fin]
    cases hpc : (s.child i).pc <;> rw [hpc] at hall hi <;> cases hall
    case reaped status =>
      obtain rfl := hs.reaped hne i status hpc
      cases hi
  refine ⟨fun hmain => ?_, fun hmain => ?_, fun hmain => ?_⟩ <;>
    exact absurd (hreturned (by rw [hmain]; rfl)) (by rw [hmain]; simp)

theorem passed_of_failed {pc : ChildPc} (h : pc.failed = 1) : pc.passed = 1 := by
  cases pc <;> simp at h ⊢

/-- Where nobody can move, the main process has ended with an error. -/
theorem main_of_stuck (hr : (faulty v n m).Reachable s) (hi : (s.child i).pc.failed = 1)
    (hstuck : (faulty v n m).Stuck s) : s.main = .failed := by
  have hs := failure_inv hr
  obtain ⟨hparse, hclean, hdone⟩ := main_of_failed hr hi
  have hmain : Riepilogo.main_process v s = none := hstuck (.inl .main)
  have hgiven : 0 < s.main.startGiven n := by
    have hle := le_tally (fun c : Child m => c.pc.passed) s.child i
    have hstart := hs.start
    simp only [passed_of_failed hi] at hle
    omega
  cases hpc : s.main with
  | failed => rfl
  | parseOutput => exact absurd hpc hparse
  | cleanUp => exact absurd hpc hclean
  | done => exact absurd hpc hdone
  | fork | waitReady =>
    rw [hpc] at hgiven
    exact absurd hgiven (Nat.lt_irrefl 0)
  | postStart l =>
    simp only [main_process, hpc] at hmain
    split at hmain <;> cases hmain
  | sleep =>
    cases v <;> simp [main_process, hpc] at hmain
  | shmOpen | mmap | setData => simp [main_process, hpc] at hmain
  | wait l =>
    by_cases hl : l < n
    · -- `wait` can return the child that has failed, or has done so
      have hne : s.main ≠ .failed := by rw [hpc]; simp
      cases hchild : (s.child i).pc with
      | exited status =>
        have hreap : wait s i = none := hstuck (.inl (.reap i))
        simp [wait, hpc, hchild, hl] at hreap
      | reaped status =>
        obtain rfl := hs.reaped hne i status hchild
        rw [hchild] at hi
        cases hi
      | notForked | postReady | waitStart | shmOpen | mmap | create | join | test | cleanUp =>
        rw [hchild] at hi
        cases hi
    · simp [main_process, hpc, hl] at hmain

/-- **The standstill**: where nobody can move, the other children have exited, or wait for ever. -/
theorem halted_of_stuck (hr : (faulty v n m).Reachable s) (hi : (s.child i).pc.failed = 1)
    (hstuck : (faulty v n m).Stuck s) (hk : k ≠ i) :
    (s.child k).pc = .exited 0 ∨ (s.child k).pc = .reaped 0 ∨ (s.child k).WaitsForEver := by
  have hinv := inv hr
  have hs := failure_inv hr
  have hmain := main_of_stuck hr hi hstuck
  have hfailed := (hinv.lost hi).2.2 k hk
  have hchild : child v s k = none := hstuck (.inl (.child k))
  have hstep := Option.map_eq_none_iff.mp hchild
  cases hpc : (s.child k).pc with
  | exited status | reaped status =>
    have hzero : status = 0 := by
      by_contra hne
      rw [hpc] at hfailed
      simp [hne] at hfailed
    simp [hzero]
  | notForked =>
    have hborn := (hinv.forked k).mp hpc
    rw [hmain] at hborn
    exact absurd k.isLt (Nat.not_lt.mpr hborn)
  | waitStart =>
    -- all tokens of the start have been given, and this child has not taken its own
    have hstart := hs.start
    have hzero : s.childrenWaitForMain = 0 := by
      simp only [child_process, hpc] at hstep
      split at hstep
      · cases hstep
      · next hnot => exact Nat.eq_zero_of_not_pos hnot
    rw [hzero, hmain, Nat.zero_add] at hstart
    have hpassed : (s.child k).pc.passed = 1 :=
      eq_one_of_card_le_tally (f := fun c : Child m => c.pc.passed)
        (fun c => by cases c.pc <;> simp) (by rw [hstart, Fintype.card_fin]; rfl) k
    rw [hpc] at hpassed
    cases hpassed
  | postReady | shmOpen | mmap | cleanUp => simp [child_process, hpc] at hstep
  | create l | test =>
    simp only [child_process, hpc] at hstep
    split at hstep <;> cases hstep
  | join l =>
    simp only [child_process, hpc] at hstep
    split at hstep
    · next hl =>
      split at hstep
      · cases hstep
      · next hdone =>
        refine .inr (.inr ⟨l, hl, hpc, ?_⟩)
        have hborn : (s.child k).thread ⟨l, hl⟩ ≠ .absent := by
          refine ((hinv.ok k).filled ⟨l, hl⟩).mpr ?_
          rw [hpc]
          exact ⟨le_rfl, hl⟩
        have hthread : thread s k ⟨l, hl⟩ = none := hstuck (.inl (.thread k ⟨l, hl⟩))
        rcases thread_function_eq_none (Option.map_eq_none_iff.mp hthread) with h | h | ⟨h, -⟩
        · exact absurd h hborn
        · exact absurd h hdone
        · exact h
    · cases hstep

/-- A child that has failed has done so for good. -/
theorem failed_forever {e : (faulty v n m).Execution} {N : ℕ}
    (hi : ((e.state N).child i).pc.failed = 1) (d : ℕ) :
    ((e.state (N + d)).child i).pc.failed = 1 ∧ (e.state (N + d)).log = (e.state N).log := by
  induction d with
  | zero => exact ⟨hi, rfl⟩
  | succ d ih =>
    rw [← Nat.add_assoc]
    cases h : (faulty v n m).step (e.state (N + d)) (e.agent (N + d)) with
    | none => rwa [Execution.next_of_none h]
    | some s =>
      rw [Execution.next_of_some h]
      have hr := e.reachable (N + d)
      exact ⟨failed_step (inv hr) h ih.1, (failure_left hr ih.1 h).2.trans ih.2⟩

/-- **After a failing `open`**: from the moment at which it has ended a child, the log does not grow
and the main process is not at the statistics.  In every schedule that lets everybody go on, all
comes to a standstill, in which the main process has ended with an error, and every other child has
exited well or waits for ever for a thread of its own. -/
theorem halts_after_failure (v : Version) (n m : ℕ) (e : (faulty v n m).Execution)
    (hfair : e.Fair fun _ t => t.isRight = true) (N : ℕ) (i : Fin n)
    (hi : ((e.state N).child i).pc.failed = 1) :
    (∀ d, (e.state (N + d)).log = (e.state N).log ∧ (e.state (N + d)).main ≠ .parseOutput ∧
      (e.state (N + d)).main ≠ .cleanUp ∧ (e.state (N + d)).main ≠ .done) ∧
    ∃ M, N ≤ M ∧ (e.state M).main = .failed ∧
      (∀ k, k ≠ i → ((e.state M).child k).pc = .exited 0 ∨
        ((e.state M).child k).pc = .reaped 0 ∨ ((e.state M).child k).WaitsForEver) ∧
      ∀ d, e.state (M + d) = e.state M := by
  refine ⟨fun d => ?_, ?_⟩
  · obtain ⟨hid, hlog⟩ := failed_forever hi d
    exact ⟨hlog, main_of_failed (e.reachable _) hid⟩
  · have hstands : e.LeadsTo (fun s => (s.child i).pc.failed = 1)
        fun s => (s.child i).pc.failed = 1 ∧ (faulty v n m).Stuck s := by
      refine hfair.leadsTo_of_decreasing (μ := State.halts) (fun s t s' hr hs h =>
        ⟨failed_step (inv hr) h hs, (failure_left hr hs h).1⟩) fun s hr hs hnot => ?_
      obtain ⟨t, ht⟩ := not_forall.mp fun hstuck => hnot ⟨hs, hstuck⟩
      refine ⟨t, ht, fun hright => ?_⟩
      rcases t with a | ⟨k, j⟩
      · cases hright
      · exact ht (thread_none_of_failed (inv hr) hs k j).2
    obtain ⟨M, hNM, hiM, hstuck⟩ := hstands N hi
    refine ⟨M, hNM, main_of_stuck (e.reachable M) hiM hstuck, fun k hk =>
      halted_of_stuck (e.reachable M) hiM hstuck hk, Execution.state_of_fixed fun t s h => ?_⟩
    rw [hstuck t] at h
    cases h

/-- Everybody who is not a failing `open`. -/
def everybody : List (Agent 2 1 ⊕ Fin 2 × Fin 1) := (agents 2 1).map .inl

theorem everybody_pos : 0 < everybody.length := Nat.succ_pos _

/-- The failure of `lossSchedule`, and then everybody in turn. -/
theorem halts_after_failure_loss : ∃ M, ((faulty .lab07 2 1).states start
    (lasso lossSchedule everybody everybody_pos) M).main = .failed := by
  obtain ⟨s, hrun, hfailed⟩ : ∃ s, (faulty .lab07 2 1).run start lossSchedule = some s ∧
      ∃ i, (s.child i).pc.failed = 1 := ⟨_, rfl, Fin.castSucc (Fin.last 0), rfl⟩
  obtain ⟨i, hi⟩ := hfailed
  have hstate : (faulty .lab07 2 1).states start (lasso lossSchedule everybody everybody_pos)
      (0 + lossSchedule.length) = s := states_run hrun fun l hl => by
    rw [Nat.zero_add, lasso, dif_pos hl]
  have hfair : (execution (M := faulty .lab07 2 1) rfl
      (lasso lossSchedule everybody everybody_pos)).Fair fun _ t => t.isRight = true := by
    refine fair_lasso fun t => ?_
    rcases t with a | f
    · exact .inl (List.mem_map_of_mem (mem_agents a))
    · exact .inr fun _ => rfl
  obtain ⟨-, M, -, hmain, -⟩ := halts_after_failure .lab07 2 1 _ hfair (0 + lossSchedule.length) i
    (by rw [show Execution.state _ _ = s from hstate]; exact hi)
  exact ⟨M, hmain⟩

end Riepilogo
