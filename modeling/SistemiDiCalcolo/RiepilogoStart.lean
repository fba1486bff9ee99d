/-
The start of the riepilogo programs.

Each child posts `main_waits_for_children` and waits for a token of
`children_wait_for_main`; the main process takes `n` tokens of the first
semaphore before it gives the `n` tokens of the second.

* `start_inv` — the accounts of the two semaphores, of the forks and of `wait`;
* `posted_of_thread` — no thread exists before all children have posted;
* `exists_step` — no reachable state is stuck before the main process is done;
* `start_barrier` — the three properties of the start together.
-/
import SistemiDiCalcolo.RiepilogoLock

open Function (update)
open AccessLog

namespace Riepilogo

namespace MainPc

/-- The counter of the loop the main process is in. -/
@[simp] def counter : MainPc → ℕ
  | .fork i | .waitReady i | .postStart i | .wait i => i
  | _ => 0

/-- The tokens of `main_waits_for_children` the main process has taken. -/
@[simp] def readyTaken (n : ℕ) : MainPc → ℕ
  | .fork _ => 0
  | .waitReady i => i
  | _ => n

/-- The tokens of `children_wait_for_main` the main process has given. -/
@[simp] def startGiven (n : ℕ) : MainPc → ℕ
  | .fork _ | .waitReady _ => 0
  | .postStart i => i
  | _ => n

/-- The children that `wait` has returned. -/
@[simp] def returned (n : ℕ) : MainPc → ℕ
  | .fork _ | .waitReady _ | .postStart _ | .sleep | .shmOpen | .mmap | .setData => 0
  | .wait i => i
  | _ => n

end MainPc

variable {n m : ℕ} {v : Version} {s s' : State n m} {i : Fin n} {j : Fin m}

/-- Every token is with its semaphore, or with one who has taken it. -/
structure StartInv (s : State n m) : Prop where
  counter : s.main.counter ≤ n
  ready : s.mainWaitsForChildren + s.main.readyTaken n
    = tally (fun c : Child m => c.pc.posted) s.child
  start : s.childrenWaitForMain + tally (fun c : Child m => c.pc.passed) s.child
    = s.main.startGiven n
  returned : tally (fun c : Child m => c.pc.returned) s.child = s.main.returned n
  alive : ∀ i, (s.child i).pc.failed = 0
  main : s.main ≠ .failed

theorem startInv_start : StartInv (start : State n m) where
  counter := Nat.zero_le n
  ready := (tally_eq_zero.mpr fun _ => rfl).symm
  start := by
    have hzero : tally (fun c : Child m => c.pc.passed) (Riepilogo.start : State n m).child = 0 :=
      tally_eq_zero.mpr fun _ => rfl
    rw [hzero]
    rfl
  returned := tally_eq_zero.mpr fun _ => rfl
  alive _ := rfl
  main := by simp [Riepilogo.start]

/-- The main process moves the tokens of the start as its loops count. -/
theorem main_process_tokens (h : main_process v s = some s') (hcounter : s.main.counter ≤ n) :
    s'.mainWaitsForChildren + s'.main.readyTaken n
        = s.mainWaitsForChildren + s.main.readyTaken n ∧
      s'.childrenWaitForMain + s.main.startGiven n
        = s.childrenWaitForMain + s'.main.startGiven n ∧
      s'.main.returned n = s.main.returned n ∧ s'.main.counter ≤ n ∧ s'.main ≠ .failed := by
  cases main_step h with
  | fork i hi hmain =>
    rw [hmain]
    exact ⟨rfl, rfl, rfl, hi, MainPc.noConfusion⟩
  | waitReady i hmain hi hpos =>
    rw [hmain]
    refine ⟨?_, rfl, rfl, hi, MainPc.noConfusion⟩
    simp only [MainPc.readyTaken]
    omega
  | postStart i hmain hi =>
    rw [hmain]
    exact ⟨rfl, Nat.succ_add_eq_add_succ _ _, rfl, hi, MainPc.noConfusion⟩
  | forked i hmain hi | ready i hmain hi | started i hmain hi | reaped i hmain hi =>
    -- the counter of a loop that is over is the number of children
    obtain rfl : i = n := Nat.le_antisymm (by rwa [hmain] at hcounter) (Nat.le_of_not_lt hi)
    simp [hmain]
  | sleepLab05 hmain _ | sleepLab07 hmain _ | shmOpen hmain | mmap hmain | setData hmain
  | parseOutput hmain | cleanUp hmain =>
    simp [hmain]

/-- A child that has just been forked has posted nothing and passed nothing. -/
theorem tally_fork {f : Child m → ℕ} {k : Fin n} (hf : f (s.child k) = 0) (hstart : f .start = 0) :
    tally f (update s.child k .start) = tally f s.child := by
  have := tally_update f s.child k .start
  omega

theorem StartInv.main_process (hs : StartInv s) (hinv : Inv s) (h : main_process v s = some s') :
    StartInv s' := by
  obtain ⟨hready, hstart, hreturned, hcounter, hne⟩ := main_process_tokens h hs.counter
  have hready₀ := hs.ready
  have hstart₀ := hs.start
  have hreturned₀ := hs.returned
  rcases main_process_child h with ⟨k, hmain, -, hk, hchild⟩ | ⟨hchild, -⟩
  · have hborn := (hinv.forked ⟨k, hk⟩).mpr (by rw [hmain]; exact le_rfl)
    refine ⟨hcounter, ?_, ?_, ?_, ?_, hne⟩
    · rw [hchild, tally_fork (by rw [hborn]; rfl) rfl]
      omega
    · rw [hchild, tally_fork (by rw [hborn]; rfl) rfl]
      omega
    · rw [hchild, tally_fork (by rw [hborn]; rfl) rfl]
      omega
    · rw [hchild]
      exact (Function.forall_update_iff s.child fun _ c => c.pc.failed = 0).mpr
        ⟨rfl, fun i _ => hs.alive i⟩
  · refine ⟨hcounter, ?_, ?_, ?_, ?_, hne⟩ <;> rw [hchild]
    · omega
    · omega
    · omega
    · exact hs.alive

/-- A step of a child other than its `fork`, against the tokens it moves. -/
theorem StartInv.of_child (hs : StartInv s) {c : Child m}
    (hchild : s'.child = update s.child i c)
    (hmain : s'.main.counter ≤ n ∧ s'.main.readyTaken n = s.main.readyTaken n ∧
      s'.main.startGiven n = s.main.startGiven n ∧ s'.main ≠ .failed)
    (hready : s'.mainWaitsForChildren + (s.child i).pc.posted
      = s.mainWaitsForChildren + c.pc.posted)
    (hstart : s'.childrenWaitForMain + c.pc.passed
      = s.childrenWaitForMain + (s.child i).pc.passed)
    (hreturned : s'.main.returned n + (s.child i).pc.returned
      = s.main.returned n + c.pc.returned)
    (hfailed : c.pc.failed = (s.child i).pc.failed) : StartInv s' := by
  obtain ⟨hcounter, htaken, hgiven, hne⟩ := hmain
  have hready₀ := hs.ready
  have hstart₀ := hs.start
  have hreturned₀ := hs.returned
  refine ⟨hcounter, ?_, ?_, ?_, ?_, hne⟩
  · have := tally_update (fun c : Child m => c.pc.posted) s.child i c
    rw [hchild]
    omega
  · have := tally_update (fun c : Child m => c.pc.passed) s.child i c
    rw [hchild]
    omega
  · have := tally_update (fun c : Child m => c.pc.returned) s.child i c
    rw [hchild]
    omega
  · rw [hchild]
    exact (Function.forall_update_iff s.child fun _ c => c.pc.failed = 0).mpr
      ⟨hfailed.trans (hs.alive i), fun k _ => hs.alive k⟩

theorem StartInv.child (hs : StartInv s) (h : child v s i = some s') : StartInv s' := by
  obtain ⟨ready, start, c, hc, rfl⟩ := child_eq_some.mp h
  obtain ⟨hready, hstart, hreturned, hfailed⟩ := child_process_tokens hc
  exact hs.of_child rfl ⟨hs.counter, rfl, rfl, hs.main⟩ hready hstart
    (by rw [hreturned]) hfailed

theorem StartInv.thread (hs : StartInv s) (h : thread s i j = some s') : StartInv s' := by
  obtain ⟨sem, log, pc, -, rfl⟩ := thread_eq_some.mp h
  exact hs.of_child rfl ⟨hs.counter, rfl, rfl, hs.main⟩ rfl rfl rfl rfl

/-- `wait` returns a child that has not failed, so that the loop goes on. -/
theorem StartInv.wait (hs : StartInv s) (h : wait s i = some s') : StartInv s' := by
  obtain ⟨k, status, hmain, hk, hpc, rfl⟩ := wait_eq_some.mp h
  have halive := hs.alive i
  rw [hpc] at halive
  have hzero : status = 0 := by
    by_contra hne
    simp [hne] at halive
  subst hzero
  refine hs.of_child rfl ?_ ?_ ?_ ?_ ?_ <;> simp [hmain, hpc]
  exact hk

theorem start_inv (h : (program v n m).Reachable s) : StartInv s := by
  have hboth : Inv s ∧ StartInv s := by
    refine h.invariant (I := fun s => Inv s ∧ StartInv s) ?_ fun s t s' hr hs hstep => ?_
    · rintro s rfl
      exact ⟨inv_start, startInv_start⟩
    · refine ⟨inv (reachable_faulty (hr.step t hstep)), ?_⟩
      rcases t with _ | i | i | ⟨i, j⟩
      · exact hs.2.main_process hs.1 hstep
      · exact hs.2.wait hstep
      · exact hs.2.child hstep
      · exact hs.2.thread hstep
  exact hboth.2

/-! ### The barrier -/

/-- No thread exists before all children have posted. -/
theorem posted_of_thread (h : (program v n m).Reachable s)
    (hj : (s.child i).thread j ≠ .absent) (k : Fin n) : (s.child k).pc.posted = 1 := by
  have hs := start_inv h
  have hpassed := (((inv (reachable_faulty h)).ok i).running hj).2.2
  have hpos : 1 ≤ tally (fun c : Child m => c.pc.passed) s.child :=
    hpassed.symm.le.trans (le_tally (fun c : Child m => c.pc.passed) s.child i)
  have hstart := hs.start
  have hcounter := hs.counter
  -- a token of the start has been given, so the first loop is over
  have htaken : s.main.readyTaken n = n := by
    cases hmain : s.main <;>
      simp only [hmain, MainPc.startGiven, MainPc.counter, MainPc.readyTaken]
        at hstart hcounter ⊢ <;> omega
  refine eq_one_of_card_le_tally (f := fun c : Child m => c.pc.posted) (fun c => ?_) ?_ k
  · cases c.pc <;> simp
  · rw [Fintype.card_fin]
    have := hs.ready
    omega

/-- A child passes the start once: it has done so exactly from the point after. -/
theorem passes_eq (h : (program v n m).Reachable s) (i : Fin n) :
    (s.child i).passes = (s.child i).pc.passed :=
  ((inv (reachable_faulty h)).ok i).passes

/-! ### No state is stuck -/

/-- A child is over once it has exited. -/
def ChildPc.Finished : ChildPc → Prop
  | .exited _ | .reaped _ => True
  | _ => False

theorem thread_eq_none (h : (program v n m).step s (.thread i j) = none) :
    (s.child i).thread j = .absent ∨ (s.child i).thread j = .done ∨
      (s.child i).thread j = .waitSem ∧ s.criticalSection = 0 :=
  thread_function_eq_none (Option.map_eq_none_iff.mp h)

/-- A thread that is not over can move, or the one inside the critical section can. -/
theorem exists_step_of_thread (hinv : Inv s) (hstart : StartInv s)
    (hborn : (s.child i).thread j ≠ .absent) (hover : (s.child i).thread j ≠ .done) :
    ∃ t, (program v n m).step s t ≠ none := by
  by_cases hstep : (program v n m).step s (.thread i j) = none
  · rcases thread_eq_none hstep with habs | hdone | ⟨-, hsem⟩
    · exact absurd habs hborn
    · exact absurd hdone hover
    · obtain ⟨k, l, hinside, -⟩ := hinv.sole_of_taken hsem hstart.alive
      refine ⟨.thread k l, fun hnone => ?_⟩
      rcases thread_eq_none hnone with hpc | hpc | ⟨hpc, -⟩ <;>
        rw [hpc] at hinside <;> cases hinside
  · exact ⟨_, hstep⟩

/-- A child that joins can move, or a thread somewhere can. -/
theorem exists_step_of_join {k : ℕ} (hinv : Inv s) (hstart : StartInv s)
    (hpc : (s.child i).pc = .join k) : ∃ t, (program v n m).step s t ≠ none := by
  by_cases hk : k < m
  · have hborn : (s.child i).thread ⟨k, hk⟩ ≠ .absent := by
      refine ((hinv.ok i).filled ⟨k, hk⟩).mpr ?_
      rw [hpc]
      exact ⟨le_rfl, hk⟩
    by_cases hdone : (s.child i).thread ⟨k, hk⟩ = .done
    · refine ⟨.child i, ?_⟩
      simp [program, step, child, child_process, hpc, hk, hdone]
    · exact exists_step_of_thread hinv hstart hborn hdone
  · refine ⟨.child i, ?_⟩
    simp [program, step, child, child_process, hpc, hk]

/-- A child between its `fork` and its exit can move, or a thread somewhere can, or it
waits for a token that has not been given. -/
theorem exists_step_of_child (hinv : Inv s) (hstart : StartInv s)
    (hborn : (s.child i).pc ≠ .notForked) (hfin : ¬ (s.child i).pc.Finished)
    (hwait : (s.child i).pc = .waitStart → 0 < s.childrenWaitForMain) :
    ∃ t, (program v n m).step s t ≠ none := by
  cases hpc : (s.child i).pc
  case notForked => exact absurd hpc hborn
  case exited | reaped => rw [hpc] at hfin; exact absurd trivial hfin
  case join k => exact exists_step_of_join hinv hstart hpc
  case waitStart =>
    refine ⟨.child i, ?_⟩
    simp [program, step, child, child_process, hpc, hwait hpc]
  case create k =>
    refine ⟨.child i, ?_⟩
    simp only [program, step, child, child_process, hpc]
    split <;> simp
  case test =>
    refine ⟨.child i, ?_⟩
    simp only [program, step, child, child_process, hpc]
    split <;> simp
  all_goals
    refine ⟨.child i, ?_⟩
    simp [program, step, child, child_process, hpc]

/-- A child that `wait` can return. -/
theorem exists_step_of_exited {k status : ℕ} (hmain : s.main = .wait k) (hk : k < n)
    (hpc : (s.child i).pc = .exited status) : ∃ t, (program v n m).step s t ≠ none :=
  ⟨.reap i, by simp [program, step, wait, hmain, hpc, hk]⟩

/-- While the main process waits for the children to be ready, one that has not
posted can. -/
theorem exists_step_of_waitReady {k : ℕ} (hinv : Inv s) (hstart : StartInv s)
    (hmain : s.main = .waitReady k) : ∃ t, (program v n m).step s t ≠ none := by
  by_cases hk : k < n ∧ s.mainWaitsForChildren = 0
  · have hready := hstart.ready
    rw [hmain, hk.2] at hready
    obtain ⟨i, hi⟩ := exists_eq_zero_of_tally_lt (f := fun c : Child m => c.pc.posted)
      (g := s.child) (by rw [← hready, Fintype.card_fin]; simpa using hk.1)
    have hborn : (s.child i).pc ≠ .notForked := fun h => by
      have := (hinv.forked i).mp h
      rw [hmain] at this
      exact absurd i.isLt (Nat.not_lt.mpr this)
    have hpc : (s.child i).pc = .postReady := ChildPc.eq_postReady hborn hi
    exact ⟨.child i, by simp [program, step, child, child_process, hpc]⟩
  · refine ⟨.main, ?_⟩
    simp only [program, step, main_process, hmain]
    split_ifs <;> simp
    omega

/-- With all tokens of the start given, a child that waits for one finds it. -/
theorem StartInv.token (hstart : StartInv s) (hmain : s.main.startGiven n = n)
    (hpc : (s.child i).pc = .waitStart) : 0 < s.childrenWaitForMain := by
  by_contra hzero
  have htally : Fintype.card (Fin n) ≤ tally (fun c : Child m => c.pc.passed) s.child := by
    have := hstart.start
    rw [Fintype.card_fin]
    omega
  have hpassed : (s.child i).pc.passed = 1 :=
    eq_one_of_card_le_tally (f := fun c : Child m => c.pc.passed)
      (fun c => by cases c.pc <;> simp) htally i
  rw [hpc] at hpassed
  cases hpassed

/-- Once the loop of `wait` is over, it has returned every child. -/
theorem StartInv.all_returned (hstart : StartInv s) (hmain : s.main.returned n = n) (i : Fin n) :
    (s.child i).pc.returned = 1 := by
  refine eq_one_of_card_le_tally (f := fun c : Child m => c.pc.returned)
    (fun c => by cases c.pc <;> simp) ?_ i
  rw [hstart.returned, hmain, Fintype.card_fin]

/-- While the main process waits for the children to end, one that has not been
returned can move, or a thread can. -/
theorem exists_step_of_wait {k : ℕ} (hinv : Inv s) (hstart : StartInv s)
    (hmain : s.main = .wait k) : ∃ t, (program v n m).step s t ≠ none := by
  by_cases hk : k < n
  · have hreturned := hstart.returned
    rw [hmain] at hreturned
    obtain ⟨i, hi⟩ := exists_eq_zero_of_tally_lt (f := fun c : Child m => c.pc.returned)
      (g := s.child) (by rw [hreturned, Fintype.card_fin]; exact hk)
    have hborn : (s.child i).pc ≠ .notForked := fun h => by
      have := (hinv.forked i).mp h
      rw [hmain] at this
      exact absurd i.isLt (Nat.not_lt.mpr this)
    cases hpc : (s.child i).pc
    case exited => exact exists_step_of_exited hmain hk hpc
    case reaped => rw [hpc] at hi; cases hi
    all_goals
      exact exists_step_of_child (i := i) hinv hstart hborn (by rw [hpc]; exact id)
        (hstart.token (by rw [hmain]; rfl))
  · refine ⟨.main, ?_⟩
    simp [program, step, main_process, hmain, hk]

/-- **No deadlock**: until the main process is done, somebody can move. -/
theorem exists_step (h : (program v n m).Reachable s) (hmain : s.main ≠ .done) :
    ∃ t, (program v n m).step s t ≠ none := by
  have hinv := inv (reachable_faulty h)
  have hstart := start_inv h
  cases hpc : s.main
  case waitReady => exact exists_step_of_waitReady hinv hstart hpc
  case wait => exact exists_step_of_wait hinv hstart hpc
  case done => exact absurd hpc hmain
  case failed => exact absurd hpc hstart.main
  all_goals
    refine ⟨.main, ?_⟩
    simp only [program, step, main_process, hpc]
    try split
  all_goals simp

/-- **The start barrier** of both programs: no thread runs before all children have
posted, each child passes the start once, and no state is stuck before the end. -/
theorem start_barrier (v : Version) (n m : ℕ) (s : State n m) (h : (program v n m).Reachable s) :
    (∀ i j, (s.child i).thread j ≠ .absent → ∀ k, (s.child k).pc.posted = 1) ∧
    (∀ i, (s.child i).passes ≤ 1 ∧ ((s.child i).pc.Finished → (s.child i).passes = 1)) ∧
    ((s.main ≠ .done ∨ ∃ i, ¬ (s.child i).pc.Finished) →
      ∃ t, (program v n m).step s t ≠ none) := by
  refine ⟨?_, ?_, ?_⟩
  · intro i j hj k
    exact posted_of_thread h hj k
  · intro i
    rw [passes_eq h i]
    cases (s.child i).pc <;> simp [ChildPc.Finished]
  · intro hover
    refine exists_step h fun hmain => ?_
    rcases hover with hne | ⟨i, hi⟩
    · exact hne hmain
    · have hreturned := (start_inv h).all_returned (by rw [hmain]; rfl) i
      cases hpc : (s.child i).pc <;> rw [hpc] at hreturned hi <;> cases hreturned
      exact hi trivial

/-! ### Two children with two threads each -/

/-- Both children post, and the main process of Lab07 comes to its store into `*data`. -/
def startSchedule : List (Agent 2 2) :=
  List.replicate 3 .main ++ (List.finRange 2).map .child ++ List.replicate 7 .main

/-- Child `i` does a round, one thread after the other. -/
def roundSchedule (i : Fin 2) : List (Agent 2 2) :=
  List.replicate 3 (.child i) ++ (List.finRange 2).flatMap (fun j => List.replicate 5 (.thread i j))
    ++ List.replicate 3 (.child i)

/-- Child 0 has found `*data` set and exited, when child 1 has just passed the start and its first
thread is inside the critical section. -/
theorem start_barrier_two : ∃ s, (program .lab07 2 2).Reachable s ∧
    (s.child 0).pc = .exited 0 ∧ (s.child 1).thread 0 = .opening ∧
    (∀ k, (s.child k).pc.posted = 1) ∧ (s.child 0).passes = 1 ∧ (s.child 1).passes ≤ 1 ∧
    ∃ t, (program .lab07 2 2).step s t ≠ none := by
  obtain ⟨s, hrun, hpc, hthread, hbusy⟩ : ∃ s,
      (program .lab07 2 2).run start (startSchedule ++ [.main, .child 0] ++ roundSchedule 0
        ++ [.child 0, .child 0, .child 1, .child 1, .thread 1 0]) = some s ∧
      (s.child 0).pc = .exited 0 ∧ (s.child 1).thread 0 = .opening ∧
      (s.child 1).pc = .create 1 := ⟨_, rfl, rfl, rfl, rfl⟩
  have hreach := (Machine.Reachable.init (M := program .lab07 2 2) rfl).run hrun
  obtain ⟨hposted, hpasses, hmoves⟩ := start_barrier .lab07 2 2 s hreach
  refine ⟨s, hreach, hpc, hthread, hposted 1 0 ?_, (hpasses 0).2 ?_, (hpasses 1).1,
    hmoves (.inr ⟨1, ?_⟩)⟩
  · rw [hthread]
    exact ThreadPc.noConfusion
  · rw [hpc]
    trivial
  · rw [hbusy]
    exact id

end Riepilogo
