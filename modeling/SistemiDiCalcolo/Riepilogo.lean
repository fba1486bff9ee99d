/-
The riepilogo programs of Lab05/00 and Lab07/02.

A main process and `n` children, each of which creates and joins `m` threads,
round after round, until it finds `*data` set.  Three named semaphores:
`main_waits_for_children` and `children_wait_for_main` for the start,
`critical_section` for the log.  The two programs differ in where the shared
memory is opened and in the test of `*data`.

* `program` — the programs, every system call succeeding;
* `faulty` — the same with an `open` of the log that may fail;
* `MainStep`, `ChildStep` — what a step can do to the process that takes it, and
  `child_eq_some`, `thread_eq_some`, `wait_eq_some` — to the state.
-/
import SistemiDiCalcolo.Machine
import SistemiDiCalcolo.AccessLog
import Mathlib.Tactic.Ring

open Function (update)
open AccessLog

namespace Riepilogo

/-- The two programs. -/
inductive Version
  | lab05
  | lab07
  deriving DecidableEq, Repr

/-- `if (*data == 1) break` in Lab05, `if (*data) break` in Lab07. -/
def Version.stops : Version → ℤ → Bool
  | .lab05, data => data = 1
  | .lab07, data => data ≠ 0

/-- Program points of `main` and `main_process`, with the counter of the loop. -/
inductive MainPc
  | fork (i : ℕ)
  | waitReady (i : ℕ)
  | postStart (i : ℕ)
  | sleep
  | shmOpen
  | mmap
  | setData
  | wait (i : ℕ)
  | parseOutput
  | cleanUp
  | done
  | failed
  deriving DecidableEq, Repr

/-- Program points of `child_process`, with the counter of the loop.  `exited`
carries the exit status; `reaped` is a child that `wait` has returned. -/
inductive ChildPc
  | notForked
  | postReady
  | waitStart
  | shmOpen
  | mmap
  | create (j : ℕ)
  | join (j : ℕ)
  | test
  | cleanUp
  | exited (status : ℕ)
  | reaped (status : ℕ)
  deriving DecidableEq, Repr

/-- Where a child goes on once it has passed the start: Lab05 opens the shared memory
there. -/
def Version.afterStart : Version → ChildPc
  | .lab05 => .shmOpen
  | .lab07 => .create 0

/-- A child and its threads; beside them the rounds of the `do` loop it has
completed and how often it has passed `sem_wait(children_wait_for_main)`. -/
structure Child (m : ℕ) where
  pc : ChildPc
  thread : Fin m → ThreadPc
  rounds : ℕ
  passes : ℕ

/-- The shared variables, the log and the processes. -/
structure State (n m : ℕ) where
  mainWaitsForChildren : ℕ
  childrenWaitForMain : ℕ
  criticalSection : ℕ
  data : ℤ
  log : Log n
  main : MainPc
  child : Fin n → Child m

/-- Who takes a step.  `reap i` is the step of the main process in which `wait`
returns child `i`. -/
inductive Agent (n m : ℕ)
  | main
  | reap (i : Fin n)
  | child (i : Fin n)
  | thread (i : Fin n) (j : Fin m)
  deriving DecidableEq, Repr

section Program

variable {n m : ℕ}

/-- The child as `fork` leaves it. -/
def Child.start : Child m where
  pc := .postReady
  thread _ := .absent
  rounds := 0
  passes := 0

/-- The child before `fork`. -/
def Child.unborn : Child m := { Child.start with pc := .notForked }

/-- The next step of `main` and `main_process`. -/
def main_process (v : Version) (s : State n m) : Option (State n m) :=
  match s.main with
  | .fork i =>
    if h : i < n then
      some { s with child := update s.child ⟨i, h⟩ .start, main := .fork (i + 1) }
    else some { s with main := .waitReady 0 }
  | .waitReady i =>
    if i < n then
      if 0 < s.mainWaitsForChildren then
        some { s with
          mainWaitsForChildren := s.mainWaitsForChildren - 1
          main := .waitReady (i + 1) }
      else none
    else some { s with main := .postStart 0 }
  | .postStart i =>
    if i < n then
      some { s with
        childrenWaitForMain := s.childrenWaitForMain + 1
        main := .postStart (i + 1) }
    else some { s with main := .sleep }
  | .sleep =>
    match v with
    | .lab05 => some { s with main := .shmOpen }
    | .lab07 => some { s with main := .setData }
  | .shmOpen => some { s with main := .mmap }
  | .mmap => some { s with main := .setData }
  | .setData => some { s with data := 1, main := .wait 0 }
  | .wait i => if i < n then none else some { s with main := .parseOutput }
  | .parseOutput => some { s with main := .cleanUp }
  | .cleanUp => some { s with main := .done }
  | .done | .failed => none

/-- `wait(&child_status)` returns the terminated child `i`; a status other than 0
ends the main process. -/
def wait (s : State n m) (i : Fin n) : Option (State n m) :=
  match s.main, (s.child i).pc with
  | .wait k, .exited status =>
    if k < n then
      some { s with
        child := update s.child i { s.child i with pc := .reaped status }
        main := if status = 0 then .wait (k + 1) else .failed }
    else none
  | _, _ => none

/-- The next step of a child in `child_process`, on the two semaphores of the start
and on the value of `*data`. -/
def child_process (v : Version) (ready start : ℕ) (data : ℤ) (c : Child m) :
    Option (ℕ × ℕ × Child m) :=
  match c.pc with
  | .postReady => some (ready + 1, start, { c with pc := .waitStart })
  | .waitStart =>
    if 0 < start then
      some (ready, start - 1, { c with pc := v.afterStart, passes := c.passes + 1 })
    else none
  | .shmOpen => some (ready, start, { c with pc := .mmap })
  | .mmap => some (ready, start, { c with pc := .create 0 })
  | .create j =>
    if h : j < m then
      some (ready, start,
        { c with thread := update c.thread ⟨j, h⟩ .waitSem, pc := .create (j + 1) })
    else some (ready, start, { c with pc := .join 0 })
  | .join j =>
    if h : j < m then
      if c.thread ⟨j, h⟩ = .done then
        some (ready, start,
          { c with thread := update c.thread ⟨j, h⟩ .absent, pc := .join (j + 1) })
      else none
    else some (ready, start, { c with pc := .test, rounds := c.rounds + 1 })
  | .test =>
    if v.stops data then some (ready, start, { c with pc := .cleanUp })
    else some (ready, start, { c with pc := .create 0 })
  | .cleanUp => some (ready, start, { c with pc := .exited 0 })
  | .notForked | .exited _ | .reaped _ => none

/-- The next step of child `i`. -/
def child (v : Version) (s : State n m) (i : Fin n) : Option (State n m) :=
  (child_process v s.mainWaitsForChildren s.childrenWaitForMain s.data (s.child i)).map
    fun (ready, start, c) =>
      { s with
        mainWaitsForChildren := ready
        childrenWaitForMain := start
        child := update s.child i c }

/-- The next step of thread `j` of child `i`. -/
def thread (s : State n m) (i : Fin n) (j : Fin m) : Option (State n m) :=
  (thread_function i s.criticalSection s.log ((s.child i).thread j)).map
    fun (sem, log, pc) =>
      { s with
        criticalSection := sem
        log := log
        child := update s.child i
          { s.child i with thread := update (s.child i).thread j pc } }

/-- `open` fails in thread `j` of child `i`: `handle_error` ends the process, with
all its threads and without a `sem_post`. -/
def openFails (s : State n m) (i : Fin n) (j : Fin m) : Option (State n m) :=
  if (s.child i).thread j = .opening then
    some { s with
      child := update s.child i
        { s.child i with pc := .exited 1, thread := fun _ => .absent } }
  else none

/-- The next step of an agent. -/
def step (v : Version) (s : State n m) : Agent n m → Option (State n m)
  | .main => main_process v s
  | .reap i => wait s i
  | .child i => child v s i
  | .thread i j => thread s i j

/-- What `main` sets up before its fork loop. -/
def start : State n m where
  mainWaitsForChildren := 0
  childrenWaitForMain := 0
  criticalSection := 1
  data := 0
  log := .empty
  main := .fork 0
  child _ := .unborn

/-- The program, every system call succeeding. -/
def program (v : Version) (n m : ℕ) : Machine (State n m) (Agent n m) where
  init s := s = start
  step := step v

/-- The program with an `open` of the log that may fail: `inr (i, j)` is the step
in which it does, in thread `j` of child `i`. -/
def faulty (v : Version) (n m : ℕ) : Machine (State n m) (Agent n m ⊕ Fin n × Fin m) where
  init s := s = start
  step s
    | .inl a => step v s a
    | .inr (i, j) => openFails s i j

end Program

/-! ### A child by its program point -/

section Point

variable {n m : ℕ}

/-- How many children the main process has forked. -/
@[simp] def MainPc.forked (n : ℕ) : MainPc → ℕ
  | .fork i => i
  | _ => n

namespace ChildPc

/-- 1 once the child has posted `main_waits_for_children`. -/
@[simp] def posted : ChildPc → ℕ
  | .notForked | .postReady => 0
  | _ => 1

/-- 1 once the child has passed `sem_wait(children_wait_for_main)`. -/
@[simp] def passed : ChildPc → ℕ
  | .notForked | .postReady | .waitStart => 0
  | _ => 1

/-- 1 once `wait` has returned the child. -/
@[simp] def returned : ChildPc → ℕ
  | .reaped _ => 1
  | _ => 0

/-- 1 if `handle_error` has ended the child. -/
@[simp] def failed : ChildPc → ℕ
  | .exited status | .reaped status => if status = 0 then 0 else 1
  | _ => 0

/-- The first thread of the round that has not been joined. -/
@[simp] def lo : ChildPc → ℕ
  | .join j => j
  | _ => 0

/-- The threads of the round that have been created. -/
@[simp] def created (m : ℕ) : ChildPc → ℕ
  | .create j => j
  | .join _ => m
  | _ => 0

/-- A point after the first round has ended. -/
@[simp] def afterRound : ChildPc → Prop
  | .test | .cleanUp => True
  | .exited status | .reaped status => status = 0
  | _ => False

end ChildPc

namespace Child

/-- The threads of the child between `sem_wait` and `sem_post`. -/
def inside (c : Child m) : ℕ := tally ThreadPc.inside c.thread

/-- The records its threads have yet to write. -/
def pending (c : Child m) : ℕ := tally ThreadPc.pending c.thread

/-- The records that the rounds completed and the threads created so far make. -/
def owed (c : Child m) : ℕ := m * c.rounds + c.pc.created m

/-- The program point of a child tells which of its threads exist, and bounds what
they have yet to write. -/
structure Ok (c : Child m) : Prop where
  filled : Filled c.pc.lo (c.pc.created m) c.thread
  lo_le : c.pc.lo ≤ m
  created_le : c.pc.created m ≤ m
  pending_le : c.pending ≤ c.pc.created m
  rounds : c.pc.afterRound → 1 ≤ c.rounds
  passes : c.passes = c.pc.passed

/-- A child without threads. -/
theorem Ok.of_filled {c : Child m} (hfilled : Filled 0 0 c.thread) (hlo : c.pc.lo = 0)
    (hcreated : c.pc.created m = 0) (hrounds : c.pc.afterRound → 1 ≤ c.rounds)
    (hpasses : c.passes = c.pc.passed) : c.Ok where
  filled := by rwa [hlo, hcreated]
  lo_le := by omega
  created_le := by omega
  pending_le := by
    rw [pending, hfilled.tally_zero rfl]
    exact Nat.zero_le _
  rounds := hrounds
  passes := hpasses

theorem ok_unborn : (unborn : Child m).Ok :=
  .of_filled (filled_absent 0) rfl rfl (fun h => h.elim) rfl

theorem ok_start : (start : Child m).Ok :=
  .of_filled (filled_absent 0) rfl rfl (fun h => h.elim) rfl

theorem Ok.pending_eq_zero {c : Child m} (hc : c.Ok) (h : c.pc.created m = 0) :
    c.pending = 0 := by
  have := hc.pending_le
  omega

/-- A child with a thread is in its loop. -/
theorem Ok.of_thread {c : Child m} (hc : c.Ok) {j : Fin m} (hj : c.thread j ≠ .absent) :
    (∃ k, c.pc = .create k) ∨ ∃ k, c.pc = .join k := by
  have hfilled := (hc.filled j).mp hj
  cases hpc : c.pc <;> simp [hpc] at hfilled ⊢

/-- `pthread_create` in a round. -/
theorem Ok.create {c : Child m} {j : ℕ} (hc : c.Ok) (hpc : c.pc = .create j) (hj : j < m) :
    (⟨.create (j + 1), update c.thread ⟨j, hj⟩ .waitSem, c.rounds, c.passes⟩ : Child m).Ok := by
  obtain ⟨hfilled, hlo, hcreated, hpending, hrounds, hpasses⟩ := hc
  rw [hpc] at hfilled hpending hpasses
  have htally : tally ThreadPc.pending (update c.thread ⟨j, hj⟩ .waitSem) = c.pending + 1 :=
    hfilled.tally_create hj rfl
  refine ⟨hfilled.create hj, Nat.zero_le _, hj, ?_, fun h => h.elim, hpasses⟩
  show tally ThreadPc.pending (update c.thread ⟨j, hj⟩ .waitSem) ≤ j + 1
  rw [htally]
  exact Nat.succ_le_succ hpending

/-- `pthread_join` in a round. -/
theorem Ok.join {c : Child m} {j : ℕ} (hc : c.Ok) (hpc : c.pc = .join j) (hj : j < m)
    (hdone : c.thread ⟨j, hj⟩ = .done) :
    (⟨.join (j + 1), update c.thread ⟨j, hj⟩ .absent, c.rounds, c.passes⟩ : Child m).Ok := by
  obtain ⟨hfilled, hlo, hcreated, hpending, hrounds, hpasses⟩ := hc
  rw [hpc] at hfilled hpending hpasses
  have htally : tally ThreadPc.pending (update c.thread ⟨j, hj⟩ .absent) = c.pending :=
    tally_join hdone rfl
  refine ⟨hfilled.join hj, hj, le_rfl, ?_, fun h => h.elim, hpasses⟩
  show tally ThreadPc.pending (update c.thread ⟨j, hj⟩ .absent) ≤ m
  rw [htally]
  exact hpending

/-- All threads of the round are created. -/
theorem Ok.all_created {c : Child m} {j : ℕ} (hc : c.Ok) (hpc : c.pc = .create j) (hj : ¬ j < m) :
    ({ c with pc := .join 0 } : Child m).Ok := by
  obtain ⟨hfilled, hlo, hcreated, hpending, hrounds, hpasses⟩ := hc
  rw [hpc] at hfilled hcreated hpending hpasses
  obtain rfl : j = m := Nat.le_antisymm hcreated (Nat.le_of_not_lt hj)
  exact ⟨hfilled, Nat.zero_le _, le_rfl, hpending, fun h => h.elim, hpasses⟩

/-- All threads of the round are joined. -/
theorem Ok.all_joined {c : Child m} {j : ℕ} (hc : c.Ok) (hpc : c.pc = .join j) (hj : ¬ j < m) :
    ({ c with pc := .test, rounds := c.rounds + 1 } : Child m).Ok := by
  obtain ⟨hfilled, hlo, -, -, -, hpasses⟩ := hc
  rw [hpc] at hfilled hlo hpasses
  obtain rfl : j = m := Nat.le_antisymm hlo (Nat.le_of_not_lt hj)
  exact .of_filled hfilled.all_joined rfl rfl (fun _ => Nat.succ_pos _) hpasses

/-- A step of a thread that exists. -/
theorem Ok.thread {c : Child m} {j : Fin m} {pc : ThreadPc} (hc : c.Ok)
    (hj : c.thread j ≠ .absent) (hne : pc ≠ .absent) (hle : pc.pending ≤ (c.thread j).pending) :
    ({ c with thread := update c.thread j pc } : Child m).Ok := by
  obtain ⟨hfilled, hlo, hcreated, hpending, hrounds, hpasses⟩ := hc
  have htally := tally_update ThreadPc.pending c.thread j pc
  refine ⟨hfilled.move hj hne, hlo, hcreated, ?_, hrounds, hpasses⟩
  simp only [pending] at hpending ⊢
  omega

end Child

end Point

/-! ### What `child_process` does to a child -/

section Steps

variable {m : ℕ} {v : Version} {ready start ready' start' : ℕ} {data : ℤ} {c c' : Child m}

/-- A step of a child, with what it has found. -/
inductive ChildStep (v : Version) (ready start : ℕ) (data : ℤ) (c : Child m) :
    ℕ → ℕ → Child m → Prop
  | postReady : c.pc = .postReady →
      ChildStep v ready start data c (ready + 1) start { c with pc := .waitStart }
  | waitStart : c.pc = .waitStart → 0 < start → ChildStep v ready start data c ready (start - 1)
      { c with pc := v.afterStart, passes := c.passes + 1 }
  | shmOpen : c.pc = .shmOpen → ChildStep v ready start data c ready start { c with pc := .mmap }
  | mmap : c.pc = .mmap → ChildStep v ready start data c ready start { c with pc := .create 0 }
  | create (j : ℕ) (hj : j < m) : c.pc = .create j → ChildStep v ready start data c ready start
      { c with thread := update c.thread ⟨j, hj⟩ .waitSem, pc := .create (j + 1) }
  | created (j : ℕ) : c.pc = .create j → ¬ j < m →
      ChildStep v ready start data c ready start { c with pc := .join 0 }
  | join (j : ℕ) (hj : j < m) : c.pc = .join j → c.thread ⟨j, hj⟩ = .done →
      ChildStep v ready start data c ready start
        { c with thread := update c.thread ⟨j, hj⟩ .absent, pc := .join (j + 1) }
  | joined (j : ℕ) : c.pc = .join j → ¬ j < m →
      ChildStep v ready start data c ready start { c with pc := .test, rounds := c.rounds + 1 }
  | stop : c.pc = .test → v.stops data = true →
      ChildStep v ready start data c ready start { c with pc := .cleanUp }
  | again : c.pc = .test → v.stops data = false →
      ChildStep v ready start data c ready start { c with pc := .create 0 }
  | cleanUp : c.pc = .cleanUp →
      ChildStep v ready start data c ready start { c with pc := .exited 0 }

theorem child_step (h : child_process v ready start data c = some (ready', start', c')) :
    ChildStep v ready start data c ready' start' c' := by
  unfold child_process at h
  cases hpc : c.pc with
  | waitStart =>
    simp only [hpc] at h
    split_ifs at h with hpos
    cases h
    exact .waitStart hpc hpos
  | create j =>
    simp only [hpc] at h
    split at h
    · next hj =>
      cases h
      exact .create j hj hpc
    · next hj =>
      cases h
      exact .created j hpc hj
  | join j =>
    simp only [hpc] at h
    split at h
    · next hj =>
      split_ifs at h with hdone
      cases h
      exact .join j hj hpc hdone
    · next hj =>
      cases h
      exact .joined j hpc hj
  | test =>
    simp only [hpc] at h
    split_ifs at h with hstop
    · cases h
      exact .stop hpc hstop
    · cases h
      exact .again hpc (Bool.eq_false_iff.mpr hstop)
  | postReady =>
    rw [hpc] at h
    cases h
    exact .postReady hpc
  | shmOpen =>
    rw [hpc] at h
    cases h
    exact .shmOpen hpc
  | mmap =>
    rw [hpc] at h
    cases h
    exact .mmap hpc
  | cleanUp =>
    rw [hpc] at h
    cases h
    exact .cleanUp hpc
  | notForked | exited status | reaped status =>
    rw [hpc] at h
    cases h

theorem ChildPc.eq_postReady {pc : ChildPc} (hborn : pc ≠ .notForked) (h : pc.posted = 0) :
    pc = .postReady := by
  cases pc with
  | postReady => rfl
  | notForked => exact absurd rfl hborn
  | waitStart | shmOpen | mmap | create j | join j | test | cleanUp | exited status
  | reaped status =>
    cases h

/-- The tokens of the two start semaphores, against the child that posts one and
takes the other; nobody fails and nobody is returned by `wait`. -/
theorem child_process_tokens (h : child_process v ready start data c = some (ready', start', c')) :
    ready' + c.pc.posted = ready + c'.pc.posted ∧ start' + c'.pc.passed = start + c.pc.passed ∧
      c'.pc.returned = c.pc.returned ∧ c'.pc.failed = c.pc.failed := by
  cases child_step h with
  | postReady hpc => simp [hpc]
  | waitStart hpc hpos => cases v <;> simp [hpc, Version.afterStart] <;> omega
  | shmOpen hpc | mmap hpc | create j hj hpc | created j hpc _ | join j hj hpc _ | joined j hpc _
  | stop hpc _ | again hpc _ | cleanUp hpc =>
    simp [hpc]

theorem child_process_ok (h : child_process v ready start data c = some (ready', start', c'))
    (hc : c.Ok) : c'.Ok := by
  have hfilled := hc.filled
  have hrounds := hc.rounds
  have hpasses := hc.passes
  cases child_step h with
  | create j hj hpc => exact hc.create hpc hj
  | created j hpc hj => exact hc.all_created hpc hj
  | join j hj hpc hdone => exact hc.join hpc hj hdone
  | joined j hpc hj => exact hc.all_joined hpc hj
  | waitStart hpc _ =>
    rw [hpc] at hfilled hpasses
    cases v with
    | lab05 => exact .of_filled hfilled rfl rfl (fun h => h.elim) (congrArg (· + 1) hpasses)
    | lab07 => exact .of_filled hfilled rfl rfl (fun h => h.elim) (congrArg (· + 1) hpasses)
  | stop hpc _ | cleanUp hpc =>
    rw [hpc] at hfilled hrounds hpasses
    exact .of_filled hfilled rfl rfl (fun _ => hrounds trivial) hpasses
  | postReady hpc | shmOpen hpc | mmap hpc | again hpc _ =>
    rw [hpc] at hfilled hpasses
    exact .of_filled hfilled rfl rfl (fun h => h.elim) hpasses

/-- A count over the threads of a child goes up with what the child owes: a thread it
creates counts at its `sem_wait`, and one that is over does not. -/
theorem child_process_tally {f : ThreadPc → ℕ}
    (h : child_process v ready start data c = some (ready', start', c')) (hc : c.Ok)
    (habsent : f .absent = 0) (hover : f .done = 0) :
    tally f c'.thread + c.owed * f .waitSem = tally f c.thread + c'.owed * f .waitSem := by
  have hcreated := hc.created_le
  cases child_step h with
  | create j hj hpc =>
    have hfilled : Filled 0 j c.thread := by
      have hfilled := hc.filled
      rwa [hpc] at hfilled
    simp only [Child.owed, hpc, ChildPc.created]
    rw [hfilled.tally_create hj habsent]
    ring
  | created j hpc hj =>
    rw [hpc] at hcreated
    obtain rfl : j = m := Nat.le_antisymm hcreated (Nat.le_of_not_lt hj)
    simp only [Child.owed, hpc, ChildPc.created]
  | join j hj hpc hdone =>
    simp only [Child.owed, hpc, ChildPc.created]
    rw [tally_join hdone (hover.trans habsent.symm)]
  | joined j hpc _ =>
    simp only [Child.owed, hpc, ChildPc.created]
    ring
  | waitStart hpc _ => cases v <;> simp [Child.owed, hpc, Version.afterStart]
  | postReady hpc | shmOpen hpc | mmap hpc | stop hpc _ | again hpc _ | cleanUp hpc =>
    simp [Child.owed, hpc]

/-- `child_process` leaves its threads inside the critical section where they are. -/
theorem child_process_inside
    (h : child_process v ready start data c = some (ready', start', c')) (hc : c.Ok) :
    c'.inside = c.inside := by
  have htally := child_process_tally (f := ThreadPc.inside) h hc rfl rfl
  simpa [ThreadPc.inside, Child.inside] using htally

/-- What the threads of a child have yet to write goes up with what the child
owes: a thread it creates, a round it ends. -/
theorem child_process_owed
    (h : child_process v ready start data c = some (ready', start', c')) (hc : c.Ok) :
    c'.pending + c.owed = c.pending + c'.owed := by
  have htally := child_process_tally (f := ThreadPc.pending) h hc rfl rfl
  simpa [ThreadPc.pending, Child.pending] using htally

/-- Only a forked child runs, and it does not get back. -/
theorem child_process_forked
    (h : child_process v ready start data c = some (ready', start', c')) :
    c.pc ≠ .notForked ∧ c'.pc ≠ .notForked := by
  cases child_step h with
  | waitStart hpc _ => cases v <;> simp [hpc, Version.afterStart]
  | postReady hpc | shmOpen hpc | mmap hpc | create j hj hpc | created j hpc _ | join j hj hpc _
  | joined j hpc _ | stop hpc _ | again hpc _ | cleanUp hpc =>
    simp [hpc]

end Steps

/-! ### What a step does to the state -/

section States

variable {n m : ℕ} {v : Version} {s s' : State n m} {i : Fin n} {j : Fin m}

theorem child_eq_some : child v s i = some s' ↔ ∃ ready start c,
    child_process v s.mainWaitsForChildren s.childrenWaitForMain s.data (s.child i)
        = some (ready, start, c) ∧
      { s with
        mainWaitsForChildren := ready
        childrenWaitForMain := start
        child := update s.child i c } = s' := by
  simp only [child, Option.map_eq_some_iff, Prod.exists]

theorem thread_eq_some : thread s i j = some s' ↔ ∃ sem log pc,
    thread_function i s.criticalSection s.log ((s.child i).thread j) = some (sem, log, pc) ∧
      { s with
        criticalSection := sem
        log := log
        child := update s.child i
          { s.child i with thread := update (s.child i).thread j pc } } = s' := by
  simp only [thread, Option.map_eq_some_iff, Prod.exists]

theorem wait_eq_some : wait s i = some s' ↔ ∃ k status, s.main = .wait k ∧ k < n ∧
    (s.child i).pc = .exited status ∧
      { s with
        child := update s.child i { s.child i with pc := .reaped status }
        main := if status = 0 then .wait (k + 1) else .failed } = s' := by
  unfold wait
  constructor
  · intro h
    split at h
    · next k status hmain hpc =>
      split at h
      · next hk => exact ⟨k, status, hmain, hk, hpc, Option.some.inj h⟩
      · cases h
    · cases h
  · rintro ⟨k, status, hmain, hk, hpc, rfl⟩
    simp only [hmain, hpc, if_pos hk]

/-- A step of `main` and `main_process`, with what the counter of its loop says. -/
inductive MainStep (v : Version) (s : State n m) : State n m → Prop
  | fork (i : ℕ) (hi : i < n) : s.main = .fork i → MainStep v s
      { s with child := update s.child ⟨i, hi⟩ .start, main := .fork (i + 1) }
  | forked (i : ℕ) : s.main = .fork i → ¬ i < n → MainStep v s { s with main := .waitReady 0 }
  | waitReady (i : ℕ) : s.main = .waitReady i → i < n → 0 < s.mainWaitsForChildren →
      MainStep v s { s with
        mainWaitsForChildren := s.mainWaitsForChildren - 1
        main := .waitReady (i + 1) }
  | ready (i : ℕ) : s.main = .waitReady i → ¬ i < n → MainStep v s { s with main := .postStart 0 }
  | postStart (i : ℕ) : s.main = .postStart i → i < n → MainStep v s { s with
      childrenWaitForMain := s.childrenWaitForMain + 1
      main := .postStart (i + 1) }
  | started (i : ℕ) : s.main = .postStart i → ¬ i < n → MainStep v s { s with main := .sleep }
  | sleepLab05 : s.main = .sleep → v = .lab05 → MainStep v s { s with main := .shmOpen }
  | sleepLab07 : s.main = .sleep → v = .lab07 → MainStep v s { s with main := .setData }
  | shmOpen : s.main = .shmOpen → MainStep v s { s with main := .mmap }
  | mmap : s.main = .mmap → MainStep v s { s with main := .setData }
  | setData : s.main = .setData → MainStep v s { s with data := 1, main := .wait 0 }
  | reaped (i : ℕ) : s.main = .wait i → ¬ i < n → MainStep v s { s with main := .parseOutput }
  | parseOutput : s.main = .parseOutput → MainStep v s { s with main := .cleanUp }
  | cleanUp : s.main = .cleanUp → MainStep v s { s with main := .done }

theorem main_step (h : main_process v s = some s') : MainStep v s s' := by
  unfold main_process at h
  cases hmain : s.main with
  | fork i =>
    simp only [hmain] at h
    split at h
    · next hi =>
      cases h
      exact .fork i hi hmain
    · next hi =>
      cases h
      exact .forked i hmain hi
  | waitReady i =>
    simp only [hmain] at h
    split_ifs at h with hi hpos
    · cases h
      exact .waitReady i hmain hi hpos
    · cases h
      exact .ready i hmain hi
  | postStart i =>
    simp only [hmain] at h
    split_ifs at h with hi
    · cases h
      exact .postStart i hmain hi
    · cases h
      exact .started i hmain hi
  | sleep =>
    rw [hmain] at h
    cases v with
    | lab05 =>
      cases h
      exact .sleepLab05 hmain rfl
    | lab07 =>
      cases h
      exact .sleepLab07 hmain rfl
  | wait i =>
    simp only [hmain] at h
    split_ifs at h with hi
    cases h
    exact .reaped i hmain hi
  | shmOpen =>
    rw [hmain] at h
    cases h
    exact .shmOpen hmain
  | mmap =>
    rw [hmain] at h
    cases h
    exact .mmap hmain
  | setData =>
    rw [hmain] at h
    cases h
    exact .setData hmain
  | parseOutput =>
    rw [hmain] at h
    cases h
    exact .parseOutput hmain
  | cleanUp =>
    rw [hmain] at h
    cases h
    exact .cleanUp hmain
  | done | failed =>
    rw [hmain] at h
    cases h

/-- `main_process` changes no child but the one it forks. -/
theorem main_process_child (h : main_process v s = some s') :
    (∃ k, s.main = .fork k ∧ s'.main = .fork (k + 1) ∧
        ∃ hk : k < n, s'.child = update s.child ⟨k, hk⟩ .start) ∨
      s'.child = s.child ∧ (s'.main.forked n = s.main.forked n ∨
        n ≤ s.main.forked n ∧ s'.main.forked n = n) := by
  cases main_step h with
  | fork i hi hmain => exact .inl ⟨i, hmain, rfl, hi, rfl⟩
  | forked i hmain hi =>
    rw [hmain]
    exact .inr ⟨rfl, .inr ⟨Nat.le_of_not_lt hi, rfl⟩⟩
  | waitReady i hmain _ _ | ready i hmain _ | postStart i hmain _ | started i hmain _
  | sleepLab05 hmain _ | sleepLab07 hmain _ | shmOpen hmain | mmap hmain | setData hmain
  | reaped i hmain _ | parseOutput hmain | cleanUp hmain =>
    rw [hmain]
    exact .inr ⟨rfl, .inl rfl⟩

/-- `main_process` leaves the log and its semaphore alone. -/
theorem main_process_frame (h : main_process v s = some s') :
    s'.log = s.log ∧ s'.criticalSection = s.criticalSection := by
  cases main_step h <;> exact ⟨rfl, rfl⟩

/-- Every step of the program is one of the program with failing `open`s. -/
theorem reachable_faulty (h : (program v n m).Reachable s) : (faulty v n m).Reachable s := by
  induction h with
  | init hs => exact .init hs
  | step t _ hs ih => exact ih.step (.inl t) hs

end States

end Riepilogo
