/-
The riepilogo programs come to their end.

Every process and every thread goes on running as long as it can.  The children repeat their
rounds until they find `*data` set, so that nothing bounds a run before; the main process gets
there all the same, and once it has set `*data` every step brings the end nearer.

* `notifies` — the main process comes to set `*data`;
* `step_left` — from then on every step lowers one measure;
* `account_of_returned` — the log once all children have been returned by `wait`;
* `ends_with_account` — the main process ends, all children have been waited for, and what
  `parseOutput` finds in the log is `m` accesses for each round of each child.
-/
import SistemiDiCalcolo.RiepilogoLog
import SistemiDiCalcolo.ParseOutput
import SistemiDiCalcolo.Fairness

open Function (update)
open AccessLog Machine

namespace Riepilogo

variable {n m : ℕ} {v : Version} {s s' : State n m} {t : Agent n m} {i : Fin n} {j : Fin m}

namespace MainPc

/-- The steps that the main process has before it, those in `wait` included. -/
def left (n : ℕ) : MainPc → ℕ
  | .fork i => 10 + 3 * n + (n - i)
  | .waitReady i => 9 + 2 * n + (n - i)
  | .postStart i => 8 + n + (n - i)
  | .sleep => 7 + n
  | .shmOpen => 6 + n
  | .mmap => 5 + n
  | .setData => 4 + n
  | .wait i => 3 + (n - i)
  | .parseOutput => 2
  | .cleanUp => 1
  | .done | .failed => 0

/-- The main process has set `*data`. -/
@[simp] def Notified : MainPc → Prop
  | .wait _ | .parseOutput | .cleanUp | .done | .failed => True
  | _ => False

end MainPc

/-- A step of the main process brings it nearer to its end. -/
theorem main_process_left (h : main_process v s = some s') :
    s'.main.left n < s.main.left n := by
  cases main_step h with
  | fork i hi hmain | waitReady i hmain hi _ | postStart i hmain hi =>
    -- one more pass of the loop
    rw [hmain]
    simp only [MainPc.left]
    omega
  | forked i hmain _ | ready i hmain _ | started i hmain _ | reaped i hmain _ | sleepLab05 hmain _
  | sleepLab07 hmain _ | shmOpen hmain | mmap hmain | setData hmain | parseOutput hmain
  | cleanUp hmain =>
    rw [hmain]
    simp only [MainPc.left]
    omega

/-- `*data` is set by the step that leaves `setData`, and not changed again. -/
theorem main_process_notified (h : main_process v s = some s')
    (hs : s.main.Notified → s.data = 1) : s'.main.Notified → s'.data = 1 := by
  cases main_step h with
  | setData hmain => exact fun _ => rfl
  | reaped i hmain _ | parseOutput hmain | cleanUp hmain =>
    rw [hmain] at hs
    exact fun _ => hs trivial
  | fork i hi hmain | forked i hmain _ | waitReady i hmain _ _ | ready i hmain _
  | postStart i hmain _ | started i hmain _ | sleepLab05 hmain _ | sleepLab07 hmain _
  | shmOpen hmain | mmap hmain =>
    exact fun hnotified => hnotified.elim

theorem data_of_notified (h : (program v n m).Reachable s) : s.main.Notified → s.data = 1 := by
  refine h.invariant (I := fun s => s.main.Notified → s.data = 1) ?_ fun s t s' _ hs hstep => ?_
  · rintro s rfl hmain
    exact hmain.elim
  · rcases t with _ | i | i | ⟨i, j⟩
    · exact main_process_notified hstep hs
    · obtain ⟨k, status, hmain, -, -, rfl⟩ := wait_eq_some.mp hstep
      exact fun _ => hs (by rw [hmain]; trivial)
    · obtain ⟨ready, start, c, -, rfl⟩ := child_eq_some.mp hstep
      exact hs
    · obtain ⟨sem, log, pc, -, rfl⟩ := thread_eq_some.mp hstep
      exact hs

/-! ### Up to the notification -/

/-- 1 as long as the child has not posted `main_waits_for_children`. -/
def Child.unposted (c : Child m) : ℕ := 1 - c.pc.posted

/-- What the main process has before it, and the tokens it waits for. -/
def early (s : State n m) : ℕ := s.main.left n + tally Child.unposted s.child

/-- The main process where it can move, and every child that has a token to post. -/
def brings (v : Version) (s : State n m) : Agent n m → Prop
  | .main => main_process v s ≠ none
  | .child i => (s.child i).pc = .postReady
  | _ => False

/-- The main process waits for nothing but the tokens of its children. -/
theorem main_process_eq_none (hs : ¬ s.main.Notified) (h : main_process v s = none) :
    ∃ k, s.main = .waitReady k ∧ k < n ∧ s.mainWaitsForChildren = 0 := by
  unfold main_process at h
  cases hmain : s.main with
  | waitReady k =>
    simp only [hmain] at h
    split_ifs at h with hk hpos
    exact ⟨k, rfl, hk, Nat.eq_zero_of_not_pos hpos⟩
  | fork k =>
    simp only [hmain] at h
    split at h <;> cases h
  | postStart k =>
    simp only [hmain] at h
    split_ifs at h
  | sleep =>
    rw [hmain] at h
    cases v <;> cases h
  | shmOpen | mmap | setData =>
    rw [hmain] at h
    cases h
  | wait k | parseOutput | cleanUp | done | failed =>
    rw [hmain] at hs
    exact absurd trivial hs

/-- While the main process waits for a token, some child has one to post. -/
theorem exists_postReady {k : ℕ} (h : (program v n m).Reachable s) (hmain : s.main = .waitReady k)
    (hk : k < n) (htokens : s.mainWaitsForChildren = 0) : ∃ i, (s.child i).pc = .postReady := by
  have hready := (start_inv h).ready
  rw [hmain, htokens, MainPc.readyTaken] at hready
  obtain ⟨i, hi⟩ := exists_eq_zero_of_tally_lt (f := fun c : Child m => c.pc.posted)
    (g := s.child) (by rw [← hready, Fintype.card_fin, Nat.zero_add]; exact hk)
  have hborn : (s.child i).pc ≠ .notForked := fun hpc => by
    have hforked := ((inv (reachable_faulty h)).forked i).mp hpc
    rw [hmain] at hforked
    exact absurd i.isLt (Nat.not_lt.mpr hforked)
  exact ⟨i, ChildPc.eq_postReady hborn hi⟩

theorem exists_brings (h : (program v n m).Reachable s) (hs : ¬ s.main.Notified) :
    ∃ t, brings v s t := by
  by_cases hmain : main_process v s = none
  · obtain ⟨k, hwait, hk, htokens⟩ := main_process_eq_none hs hmain
    obtain ⟨i, hi⟩ := exists_postReady h hwait hk htokens
    exact ⟨.child i, hi⟩
  · exact ⟨.main, hmain⟩

theorem step_ne_none_of_brings (h : brings v s t) : (program v n m).step s t ≠ none := by
  rcases t with _ | i | i | ⟨i, j⟩
  · exact h
  · exact h.elim
  · have hpc : (s.child i).pc = .postReady := h
    simp [program, step, child, child_process, hpc]
  · exact h.elim

/-- A child posts its token, or leaves the tokens where they are. -/
theorem child_process_posted {ready start ready' start' : ℕ} {data : ℤ} {c c' : Child m}
    (h : child_process v ready start data c = some (ready', start', c')) :
    c.pc = .postReady ∧ ready ≤ ready' ∧ c'.pc.posted = 1 ∨
      c.pc ≠ .postReady ∧ ready' = ready ∧ c'.pc.posted = c.pc.posted ∧ c'.pc ≠ .postReady := by
  cases child_step h with
  | postReady hpc => exact .inl ⟨hpc, Nat.le_succ ready, rfl⟩
  | waitStart hpc _ => cases v <;> simp [hpc, Version.afterStart]
  | shmOpen hpc | mmap hpc | create j hj hpc | created j hpc _ | join j hj hpc _ | joined j hpc _
  | stop hpc _ | again hpc _ | cleanUp hpc =>
    simp [hpc]

/-- Where the main process can move, a step of another leaves it able to. -/
theorem main_process_of_eq (hmain : s'.main = s.main)
    (hready : s.mainWaitsForChildren ≤ s'.mainWaitsForChildren) (hs : ¬ s.main.Notified)
    (h : main_process v s ≠ none) : main_process v s' ≠ none := by
  intro hnone
  obtain ⟨k, hwait, hk, htokens⟩ := main_process_eq_none (by rw [hmain]; exact hs) hnone
  refine h.elim ?_
  rw [hmain] at hwait
  have hzero : s.mainWaitsForChildren = 0 := by omega
  simp [main_process, hwait, hk, hzero]

/-- Whoever moves, the one that brings the notification nearer has done so or still can. -/
theorem brings_step {u : Agent n m} (hr : (program v n m).Reachable s) (hs : ¬ s.main.Notified)
    (ht : brings v s t) (h : (program v n m).step s u = some s') :
    early s' < early s ∨ early s' = early s ∧ u ≠ t ∧ brings v s' t := by
  rcases u with _ | i | i | ⟨i, j⟩
  · refine .inl ?_
    have hleft := main_process_left h
    rcases main_process_child h with ⟨k, hmain, -, hk, hchild⟩ | ⟨hchild, -⟩
    · have hborn := ((inv (reachable_faulty hr)).forked ⟨k, hk⟩).mpr (by rw [hmain]; exact le_rfl)
      have htally := tally_update Child.unposted s.child ⟨k, hk⟩ .start
      rw [Child.unposted, Child.unposted, hborn] at htally
      simp only [Child.start, ChildPc.posted] at htally
      rw [early, early, hchild]
      simp only [Child.start]
      omega
    · rw [early, early, hchild]
      omega
  · obtain ⟨k, status, hmain, -, -, -⟩ := wait_eq_some.mp h
    rw [hmain] at hs
    exact absurd trivial hs
  · obtain ⟨ready, start, c, hc, rfl⟩ := child_eq_some.mp h
    have htally := tally_update Child.unposted s.child i c
    rcases child_process_posted hc with ⟨hpc, -, hposted⟩ | ⟨hpc, hready, hposted, hpc'⟩
    · refine .inl ?_
      rw [Child.unposted, Child.unposted, hpc, hposted] at htally
      simp only [ChildPc.posted] at htally
      simp only [early]
      omega
    · refine .inr ⟨?_, ?_, ?_⟩
      · rw [Child.unposted, Child.unposted, hposted] at htally
        simp only [early]
        omega
      · rintro rfl
        exact hpc ht
      · rcases t with _ | k | k | ⟨k, l⟩
        · exact main_process_of_eq (s := s) rfl hready.ge hs ht
        · exact ht.elim
        · have hpck : (s.child k).pc = .postReady := ht
          have hne : k ≠ i := fun heq => hpc (heq ▸ hpck)
          show (update s.child i c k).pc = .postReady
          rw [Function.update_of_ne hne]
          exact hpck
        · exact ht.elim
  · obtain ⟨sem, log, pc, -, rfl⟩ := thread_eq_some.mp h
    have htally := tally_update Child.unposted s.child i
      { s.child i with thread := update (s.child i).thread j pc }
    refine .inr ⟨?_, ?_, ?_⟩
    · simp only [early, Child.unposted] at htally ⊢
      omega
    · rintro rfl
      exact ht
    · rcases t with _ | k | k | ⟨k, l⟩
      · exact main_process_of_eq (s := s) rfl le_rfl hs ht
      · exact ht.elim
      · show (update s.child i { s.child i with thread := update (s.child i).thread j pc } k).pc
          = .postReady
        obtain rfl | hne := eq_or_ne k i
        · rw [Function.update_self]
          exact ht
        · rw [Function.update_of_ne hne]
          exact ht
      · exact ht.elim

/-- **The notification**: whatever the children do, the main process comes to set `*data`. -/
theorem notifies {e : (program v n m).Execution} (hfair : e.Fair fun _ _ => False) :
    e.LeadsTo (fun _ => True) fun s => s.main.Notified := by
  refine hfair.leadsTo (μ := early) (H := brings v) ?_ ?_ ?_
  · intro s t u s' hr _ hs ht h
    exact .inr ⟨trivial, brings_step hr hs ht h⟩
  · intro s hr _ hs
    exact exists_brings hr hs
  · intro s t _ _ _ ht
    exact ⟨step_ne_none_of_brings ht, id⟩

/-! ### From the notification on -/

/-- The steps that a thread has before it. -/
def threadLeft : ThreadPc → ℕ
  | .waitSem => 5
  | .opening => 4
  | .writing => 3
  | .closing => 2
  | .posting => 1
  | .absent | .done => 0

/-- The steps that a child has before it once `*data` is set, with those of the threads it has yet
to create. -/
def ChildPc.left (m : ℕ) : ChildPc → ℕ
  | .notForked => 10 + 7 * m
  | .postReady => 9 + 7 * m
  | .waitStart => 8 + 7 * m
  | .shmOpen => 7 + 7 * m
  | .mmap => 6 + 7 * m
  | .create j => 5 + m + 6 * (m - j)
  | .join j => 4 + (m - j)
  | .test => 3
  | .cleanUp => 2
  | .exited _ => 1
  | .reaped _ => 0

/-- The steps that a child and its threads have before them. -/
def Child.left (c : Child m) : ℕ := c.pc.left m + tally threadLeft c.thread

/-- What is left of the program. -/
def late (s : State n m) : ℕ := s.main.left n + tally Child.left s.child

theorem thread_function_left {sem sem' : ℕ} {log log' : Log n} {pc pc' : ThreadPc}
    (h : thread_function i sem log pc = some (sem', log', pc')) :
    threadLeft pc' < threadLeft pc := by
  cases thread_step h <;> exact Nat.lt_succ_self _

/-- A child that finds `*data` set goes on to its exit. -/
theorem child_process_left {ready start ready' start' : ℕ} {data : ℤ} {c c' : Child m}
    (h : child_process v ready start data c = some (ready', start', c')) (hc : c.Ok)
    (hstop : v.stops data = true) : c'.left < c.left := by
  have htally := child_process_tally (f := threadLeft) h hc rfl rfl
  have hcreated := hc.created_le
  cases child_step h with
  | create j hj hpc =>
    simp only [Child.left, Child.owed, ChildPc.created, ChildPc.left, threadLeft, hpc] at htally ⊢
    omega
  | created j hpc hj =>
    rw [hpc, ChildPc.created] at hcreated
    simp only [Child.left, ChildPc.left, hpc]
    omega
  | join j hj hpc _ =>
    simp only [Child.left, Child.owed, ChildPc.created, ChildPc.left, threadLeft, hpc] at htally ⊢
    omega
  | again hpc hnot =>
    rw [hstop] at hnot
    cases hnot
  | waitStart hpc _ =>
    cases v <;> simp only [Child.left, ChildPc.left, Version.afterStart, hpc] <;> omega
  | joined j hpc _ | postReady hpc | shmOpen hpc | mmap hpc | stop hpc _ | cleanUp hpc =>
    simp only [Child.left, ChildPc.left, hpc]
    omega

theorem main_process_notified_frame (h : main_process v s = some s') (hs : s.main.Notified) :
    s'.main.Notified ∧ s'.child = s.child := by
  cases main_step h with
  | reaped i hmain _ | parseOutput hmain | cleanUp hmain => exact ⟨trivial, rfl⟩
  | fork i hi hmain | forked i hmain _ | waitReady i hmain _ _ | ready i hmain _
  | postStart i hmain _ | started i hmain _ | sleepLab05 hmain _ | sleepLab07 hmain _
  | shmOpen hmain | mmap hmain | setData hmain =>
    rw [hmain] at hs
    exact hs.elim

/-- **Once `*data` is set** every step of anybody brings the end nearer. -/
theorem step_left (hr : (program v n m).Reachable s) (hs : s.main.Notified)
    (h : (program v n m).step s t = some s') : s'.main.Notified ∧ late s' < late s := by
  have hdata := data_of_notified hr hs
  rcases t with _ | i | i | ⟨i, j⟩
  · obtain ⟨hs', hchild⟩ := main_process_notified_frame h hs
    have hleft := main_process_left h
    refine ⟨hs', ?_⟩
    rw [late, late, hchild]
    omega
  · obtain ⟨k, status, hmain, hk, hpc, rfl⟩ := wait_eq_some.mp h
    have htally := tally_update Child.left s.child i { s.child i with pc := .reaped status }
    have hzero : status = 0 := by
      have halive := (start_inv hr).alive i
      by_contra hne
      simp [hpc, hne] at halive
    simp only [Child.left, ChildPc.left, hpc] at htally
    subst hzero
    refine ⟨by simp, ?_⟩
    simp only [late, hmain, MainPc.left, if_true]
    omega
  · obtain ⟨ready, start, c, hc, rfl⟩ := child_eq_some.mp h
    have htally := tally_update Child.left s.child i c
    have hleft := child_process_left hc ((inv (reachable_faulty hr)).ok i)
      (by rw [hdata]; cases v <;> rfl)
    refine ⟨hs, ?_⟩
    simp only [late]
    omega
  · obtain ⟨sem, log, pc, hf, rfl⟩ := thread_eq_some.mp h
    have htally := tally_update Child.left s.child i
      { s.child i with thread := update (s.child i).thread j pc }
    have hthread := tally_update threadLeft (s.child i).thread j pc
    have hleft := thread_function_left hf
    refine ⟨hs, ?_⟩
    simp only [late, Child.left] at htally ⊢
    omega

/-- **The end**: in every schedule that lets everybody go on, the main process gets to its end. -/
theorem ends {e : (program v n m).Execution} (hfair : e.Fair fun _ _ => False) :
    e.LeadsTo (fun _ => True) fun s => s.main = .done := by
  refine (notifies hfair).trans ?_
  refine hfair.leadsTo_of_decreasing (μ := late) (fun s t s' hr hs h => step_left hr hs h) ?_
  intro s hr hs hmain
  obtain ⟨t, ht⟩ := exists_step hr hmain
  exact ⟨t, ht, id⟩

/-! ### The log at the end -/

/-- Once `wait` has returned all children, each has gone through its rounds, and written `m`
records in each. -/
theorem account_of_returned (h : (program v n m).Reachable s) (hmain : s.main.returned n = n)
    (i : Fin n) : (s.child i).pc = .reaped 0 ∧ 1 ≤ (s.child i).rounds ∧
      s.log.records.count i = m * (s.child i).rounds := by
  have hok := (inv (reachable_faulty h)).ok i
  have hreturned := (start_inv h).all_returned hmain i
  have halive := (start_inv h).alive i
  have haccount := (log_inv h).account i
  cases hpc : (s.child i).pc <;> rw [hpc] at hreturned halive <;> cases hreturned
  case reaped status =>
    have hzero : status = 0 := by
      by_contra hne
      simp [hne] at halive
    rw [hok.pending_eq_zero (by rw [hpc]; rfl), Child.owed, hpc] at haccount
    exact ⟨by rw [hzero], hok.rounds (by rw [hpc]; exact hzero), haccount⟩

/-- When the main process is done, nobody is left to move. -/
theorem stuck_of_done (h : (program v n m).Reachable s) (hmain : s.main = .done) :
    (program v n m).Stuck s := by
  have hreaped := fun i => (account_of_returned h (by rw [hmain]; rfl) i).1
  rintro (_ | i | i | ⟨i, j⟩)
  · simp [program, step, main_process, hmain]
  · simp [program, step, wait, hmain]
  · simp [program, step, child, child_process, hreaped i]
  · have habsent : (s.child i).thread j = .absent := by
      by_contra hborn
      have hfilled := (((inv (reachable_faulty h)).ok i).filled j).mp hborn
      rw [hreaped i] at hfilled
      exact absurd hfilled.2 (Nat.not_lt_zero _)
    simp [program, step, thread, thread_function, habsent]

/-- **What `parseOutput` finds** in the log once all children have been returned. -/
theorem parseOutput_of_returned (h : (program v n m).Reachable s) (hmain : s.main.returned n = n)
    (hpos : 0 < n) (hn : n < 2 ^ 31) (hlen : s.log.records.length < 2 ^ 31) (index : CInt)
    (memory : ℤ → CInt) :
    ∃ access_stats scan, ParseOutput.parseOutput (BitVec.ofNat 32 n) index memory
        (ParseOutput.reads s.log.bytes) = (access_stats, scan) ∧
      (∀ i : Fin n, (access_stats i.val).toInt = m * (s.child i).rounds) ∧
      ∃ id : Fin n, scan.max_child_id.toInt = id.val ∧
        scan.max_accesses.toInt = m * (s.child id).rounds ∧
        (∀ i, m * (s.child i).rounds ≤ m * (s.child id).rounds) ∧
        ∀ i, i < id → m * (s.child i).rounds < m * (s.child id).rounds := by
  have hint : (BitVec.ofNat 32 n : CInt).toInt = n := toInt_ofNat_of_lt hn
  have hcount : ∀ i : Fin n, (s.log.records.map Log.childId).count (BitVec.ofNat 32 i.val)
      = m * (s.child i).rounds := fun i =>
    (Log.count_childId hn.le s.log.records i).trans (account_of_returned h hmain i).2.2
  have hbytes : s.log.bytes = (s.log.records.map Log.childId).flatMap intBytes := by
    rw [List.flatMap_map]
    exact (inv (reachable_faulty h)).whole
  have hids : ∀ index ∈ s.log.records.map Log.childId, 0 ≤ index.toInt ∧
      index.toInt < (BitVec.ofNat 32 n : CInt).toInt := by
    intro index hindex
    obtain ⟨i, -, rfl⟩ := List.mem_map.mp hindex
    rw [Log.childId_toInt hn.le, hint]
    exact ⟨Int.natCast_nonneg _, by exact_mod_cast i.isLt⟩
  obtain ⟨-, access_stats, scan, hparse, hstats, -, -, id, hfirst, hchild, hmax⟩ :=
    ParseOutput.statistics (BitVec.ofNat 32 n) index memory (s.log.records.map Log.childId)
      (by rw [hint]; exact_mod_cast hpos) hids (by rw [List.length_map]; exact hlen)
  rw [hint, Int.toNat_natCast] at hstats hfirst
  refine ⟨access_stats, scan, by rw [hbytes]; exact hparse, ?_, ⟨id, hfirst.lt⟩, hchild, ?_, ?_, ?_⟩
  · intro i
    rw [hstats i i.isLt, hcount i]
    exact Nat.cast_mul _ _
  · rw [hmax, hcount ⟨id, hfirst.lt⟩]
    exact Nat.cast_mul _ _
  · intro i
    rw [← hcount i, ← hcount ⟨id, hfirst.lt⟩]
    exact hfirst.le i i.isLt
  · intro i hi
    rw [← hcount i, ← hcount ⟨id, hfirst.lt⟩]
    exact hfirst.first i hi

/-- **The whole run** of both programs: in every schedule that lets everybody go on, the main
process gets to its end and nobody is left behind; every child has gone through one round at
least and has been waited for, and `parseOutput` finds `m` accesses for each round of each child,
and reports the first child with the most. -/
theorem ends_with_account (v : Version) (n m : ℕ) (e : (program v n m).Execution)
    (hfair : e.Fair fun _ _ => False) :
    ∃ N, (e.state N).main = .done ∧ (∀ k, e.state (N + k) = e.state N) ∧
      (∀ i, ((e.state N).child i).pc = .reaped 0 ∧ 1 ≤ ((e.state N).child i).rounds) ∧
      (0 < n → n < 2 ^ 31 → (e.state N).log.records.length < 2 ^ 31 →
        ∀ (index : CInt) (memory : ℤ → CInt),
          ∃ access_stats scan, ParseOutput.parseOutput (BitVec.ofNat 32 n) index memory
              (ParseOutput.reads (e.state N).log.bytes) = (access_stats, scan) ∧
            (∀ i : Fin n, (access_stats i.val).toInt = m * ((e.state N).child i).rounds) ∧
            ∃ id : Fin n, scan.max_child_id.toInt = id.val ∧
              scan.max_accesses.toInt = m * ((e.state N).child id).rounds ∧
              (∀ i, m * ((e.state N).child i).rounds ≤ m * ((e.state N).child id).rounds) ∧
              ∀ i, i < id →
                m * ((e.state N).child i).rounds < m * ((e.state N).child id).rounds) := by
  obtain ⟨N, -, hmain⟩ := ends hfair 0 trivial
  have hreturned : (e.state N).main.returned n = n := by rw [hmain]; rfl
  have hstuck := stuck_of_done (e.reachable N) hmain
  refine ⟨N, hmain, Execution.state_of_fixed fun t s h => ?_, ?_, ?_⟩
  · rw [hstuck t] at h
    cases h
  · intro i
    obtain ⟨hpc, hrounds, -⟩ := account_of_returned (e.reachable N) hreturned i
    exact ⟨hpc, hrounds⟩
  · intro hpos hn hlen index memory
    exact parseOutput_of_returned (e.reachable N) hreturned hpos hn hlen index memory

/-- The processes and threads, with a turn of the main process for each child to be waited for. -/
def agents (n m : ℕ) : List (Agent n m) :=
  .main :: ((List.finRange n).map .reap ++ (List.finRange n).map .child ++
    (List.finRange n).flatMap fun i => (List.finRange m).map (.thread i))

theorem agents_pos (n m : ℕ) : 0 < (agents n m).length := Nat.succ_pos _

theorem mem_agents (t : Agent n m) : t ∈ agents n m := by
  rcases t with _ | i | i | ⟨i, j⟩ <;> simp [agents]

/-- With everybody in turn, two children come to their end. -/
theorem ends_with_account_two : ∃ N,
    ((program .lab05 2 1).states start (cycle (agents 2 1) (agents_pos 2 1)) N).main = .done ∧
      ∀ i, (((program .lab05 2 1).states start (cycle (agents 2 1) (agents_pos 2 1)) N).child i).pc
        = .reaped 0 := by
  obtain ⟨N, hmain, -, hreaped, -⟩ := ends_with_account .lab05 2 1
    (execution rfl (cycle (agents 2 1) (agents_pos 2 1))) (fair_cycle mem_agents)
  exact ⟨N, hmain, fun i => (hreaped i).1⟩

end Riepilogo
