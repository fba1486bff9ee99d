/-
The riepilogo program of Lab04.

The main process and its `N` children meet at named semaphores whose values
they read with `sem_getvalue`, in loops that test the local variable `check`
before it is first written.  The lock of the log is a semaphore in the memory of
each process, a copy of which `fork` gives to each child, and the main process
removes the names of the semaphores and reads the log without waiting for
anybody.

* `program` — the program, for any number of children, threads, and any content
  of the variables `check`;
* `ChildStep`, `MainStep` — what a step can do;
* `Child.Ok` — which threads of a child exist, and the account of its lock;
* `sole_inside_child` — within one child the lock excludes.
-/
import SistemiDiCalcolo.Machine
import SistemiDiCalcolo.AccessLog

open Function (update)
open AccessLog

namespace Polling

/-- A named semaphore: its value, and whether its name can still be opened. -/
structure NamedSem where
  value : ℕ
  linked : Bool
  deriving DecidableEq, Repr

namespace NamedSem

def post (sem : NamedSem) : NamedSem := { sem with value := sem.value + 1 }

def take (sem : NamedSem) : NamedSem := { sem with value := sem.value - 1 }

def unlink (sem : NamedSem) : NamedSem := { sem with linked := false }

end NamedSem

/-- Program points of `main` and `mainProcess`, with the counter of the loop; that of
`parse` is the number of records read. -/
inductive MainPc
  | fork (i : ℕ)
  | openReady
  | testReady
  | getReady
  | openStart
  | postStart (i : ℕ)
  | sleep
  | openHalt
  | postHalt (i : ℕ)
  | unlinkReady
  | unlinkStart
  | unlinkHalt
  | parse (k : ℕ)
  | done
  | failed
  deriving DecidableEq, Repr

/-- Program points of `childProcess`, with the counter of the loop. -/
inductive ChildPc
  | notForked
  | openReady
  | postReady
  | openStart
  | waitStart
  | openHalt
  | testHalt
  | getHalt
  | create (j : ℕ)
  | join (j : ℕ)
  | exited (status : ℕ)
  deriving DecidableEq, Repr

/-- A child: its variable `check`, its copy of `file_sem` and its threads; beside
them whether it has posted `ready_sem` and passed the start wait, and the rounds
it has completed. -/
structure Child (M : ℕ) where
  pc : ChildPc
  check : ℤ
  fileSem : ℕ
  thread : Fin M → ThreadPc
  posted : Bool
  started : Bool
  rounds : ℕ

/-- The named semaphores, the memory of the main process, the log and the children;
`reads` are the records that `parseOutput` has read. -/
structure State (N M : ℕ) where
  ready : NamedSem
  start : NamedSem
  halt : NamedSem
  fileSem : ℕ
  check : ℤ
  log : Log N
  reads : List CInt
  main : MainPc
  child : Fin N → Child M

/-- Who takes a step. -/
inductive Agent (N M : ℕ)
  | main
  | child (i : Fin N)
  | thread (i : Fin N) (j : Fin M)
  deriving DecidableEq, Repr

section Program

variable {N M : ℕ}

/-- A child before `fork`; `check` is what its variable will contain. -/
def Child.unborn (check : ℤ) : Child M where
  pc := .notForked
  check := check
  fileSem := 0
  thread _ := .absent
  posted := false
  started := false
  rounds := 0

/-- The child that `fork` makes, with its copy of the memory of the main process. -/
def Child.forked (c : Child M) (fileSem : ℕ) : Child M :=
  { c with pc := .openReady, fileSem := fileSem }

/-- The next step of `main`, `mainProcess` and `parseOutput`. -/
def mainProcess (s : State N M) : Option (State N M) :=
  match s.main with
  | .fork i =>
    if h : i < N then
      some { s with
        child := update s.child ⟨i, h⟩ ((s.child ⟨i, h⟩).forked s.fileSem)
        main := .fork (i + 1) }
    else some { s with main := .openReady }
  | .openReady => some { s with main := if s.ready.linked then .testReady else .failed }
  | .testReady => some { s with main := if s.check ≠ N then .getReady else .openStart }
  | .getReady => some { s with check := s.ready.value, main := .testReady }
  | .openStart => some { s with main := if s.start.linked then .postStart 0 else .failed }
  | .postStart i =>
    if i < N then some { s with start := s.start.post, main := .postStart (i + 1) }
    else some { s with main := .sleep }
  | .sleep => some { s with main := .openHalt }
  | .openHalt => some { s with main := if s.halt.linked then .postHalt 0 else .failed }
  | .postHalt i =>
    if i < N then some { s with halt := s.halt.post, main := .postHalt (i + 1) }
    else some { s with main := .unlinkReady }
  | .unlinkReady => some { s with ready := s.ready.unlink, main := .unlinkStart }
  | .unlinkStart => some { s with start := s.start.unlink, main := .unlinkHalt }
  | .unlinkHalt => some { s with halt := s.halt.unlink, main := .parse 0 }
  | .parse k =>
    match (readInts s.log.bytes)[k]? with
    | some index => some { s with reads := s.reads ++ [index], main := .parse (k + 1) }
    | none => some { s with main := .done }
  | .done | .failed => none

/-- The next step of a child in `childProcess`, on the three semaphores.  A
`sem_open` of a name that has been removed ends the process. -/
def childProcess (N : ℕ) (ready start halt : NamedSem) (c : Child M) :
    Option (NamedSem × NamedSem × Child M) :=
  match c.pc with
  | .openReady =>
    some (ready, start, { c with pc := if ready.linked then .postReady else .exited 1 })
  | .postReady => some (ready.post, start, { c with pc := .openStart, posted := true })
  | .openStart =>
    some (ready, start, { c with pc := if start.linked then .waitStart else .exited 1 })
  | .waitStart =>
    if 0 < start.value then
      some (ready, start.take, { c with pc := .openHalt, started := true })
    else none
  | .openHalt =>
    some (ready, start, { c with pc := if halt.linked then .testHalt else .exited 1 })
  | .testHalt =>
    some (ready, start, { c with pc := if c.check ≠ N then .getHalt else .exited 0 })
  | .getHalt => some (ready, start, { c with check := halt.value, pc := .create 0 })
  | .create j =>
    if h : j < M then
      some (ready, start,
        { c with thread := update c.thread ⟨j, h⟩ .waitSem, pc := .create (j + 1) })
    else some (ready, start, { c with pc := .join 0 })
  | .join j =>
    if h : j < M then
      if c.thread ⟨j, h⟩ = .done then
        some (ready, start,
          { c with thread := update c.thread ⟨j, h⟩ .absent, pc := .join (j + 1) })
      else none
    else some (ready, start, { c with pc := .testHalt, rounds := c.rounds + 1 })
  | .notForked | .exited _ => none

/-- The next step of child `i`. -/
def child (s : State N M) (i : Fin N) : Option (State N M) :=
  (childProcess N s.ready s.start s.halt (s.child i)).map fun (ready, start, c) =>
    { s with ready := ready, start := start, child := update s.child i c }

/-- The next step of thread `j` of child `i`, on the child's own `file_sem`. -/
def thread (s : State N M) (i : Fin N) (j : Fin M) : Option (State N M) :=
  (thread_function i (s.child i).fileSem s.log ((s.child i).thread j)).map
    fun (sem, log, pc) =>
      { s with
        log := log
        child := update s.child i
          { s.child i with fileSem := sem, thread := update (s.child i).thread j pc } }

/-- The next step of an agent. -/
def step (s : State N M) : Agent N M → Option (State N M)
  | .main => mainProcess s
  | .child i => child s i
  | .thread i j => thread s i j

/-- What `main` sets up before its fork loop: the named semaphores at 0, its
`file_sem` at 1, an empty log. -/
def initial (check : ℤ) (checks : Fin N → ℤ) : State N M where
  ready := ⟨0, true⟩
  start := ⟨0, true⟩
  halt := ⟨0, true⟩
  fileSem := 1
  check := check
  log := .empty
  reads := []
  main := .fork 0
  child i := .unborn (checks i)

/-- The program, when the variable `check` of the main process contains `check`, and
that of child `i` contains `checks i`. -/
def program (check : ℤ) (checks : Fin N → ℤ) : Machine (State N M) (Agent N M) where
  init s := s = initial check checks
  step := step

end Program

/-! ### A child by its program point -/

section Point

variable {N M : ℕ}

namespace ChildPc

/-- The first thread of the round that has not been joined. -/
@[simp] def lo : ChildPc → ℕ
  | .join j => j
  | _ => 0

/-- The threads of the round that have been created. -/
@[simp] def created (M : ℕ) : ChildPc → ℕ
  | .create j => j
  | .join _ => M
  | _ => 0

end ChildPc

namespace Child

/-- The threads of the child between `sem_wait` and `sem_post`. -/
def inside (c : Child M) : ℕ := tally ThreadPc.inside c.thread

/-- The program point of a child tells which of its threads exist, and its lock is
free, or with one of them. -/
structure Ok (c : Child M) : Prop where
  filled : Filled c.pc.lo (c.pc.created M) c.thread
  lo_le : c.pc.lo ≤ M
  created_le : c.pc.created M ≤ M
  lock : c.fileSem + c.inside ≤ 1

/-- A child without threads. -/
theorem Ok.of_filled {c : Child M} (hfilled : Filled 0 0 c.thread) (hlo : c.pc.lo = 0)
    (hcreated : c.pc.created M = 0) (hsem : c.fileSem ≤ 1) : c.Ok where
  filled := by rwa [hlo, hcreated]
  lo_le := by omega
  created_le := by omega
  lock := by
    rw [inside, hfilled.tally_zero rfl]
    exact hsem

theorem ok_unborn (check : ℤ) : (unborn check : Child M).Ok :=
  .of_filled (filled_absent 0) rfl rfl (Nat.zero_le 1)

theorem Ok.sem_le {c : Child M} (hc : c.Ok) : c.fileSem ≤ 1 :=
  (Nat.le_add_right _ _).trans hc.lock

/-- A child with a thread is in its round. -/
theorem Ok.of_thread {c : Child M} (hc : c.Ok) {j : Fin M} (hj : c.thread j ≠ .absent) :
    (∃ k, c.pc = .create k) ∨ ∃ k, c.pc = .join k := by
  have hfilled := (hc.filled j).mp hj
  cases hpc : c.pc <;> simp [hpc] at hfilled ⊢

end Child

/-- A step of a child, with what it has found. -/
inductive ChildStep (N : ℕ) (ready start halt : NamedSem) (c : Child M) :
    NamedSem → NamedSem → Child M → Prop
  | openReady : c.pc = .openReady → ready.linked = true →
      ChildStep N ready start halt c ready start { c with pc := .postReady }
  | noReady : c.pc = .openReady → ready.linked = false →
      ChildStep N ready start halt c ready start { c with pc := .exited 1 }
  | postReady : c.pc = .postReady →
      ChildStep N ready start halt c ready.post start { c with pc := .openStart, posted := true }
  | openStart : c.pc = .openStart → start.linked = true →
      ChildStep N ready start halt c ready start { c with pc := .waitStart }
  | noStart : c.pc = .openStart → start.linked = false →
      ChildStep N ready start halt c ready start { c with pc := .exited 1 }
  | waitStart : c.pc = .waitStart → 0 < start.value →
      ChildStep N ready start halt c ready start.take { c with pc := .openHalt, started := true }
  | openHalt : c.pc = .openHalt → halt.linked = true →
      ChildStep N ready start halt c ready start { c with pc := .testHalt }
  | noHalt : c.pc = .openHalt → halt.linked = false →
      ChildStep N ready start halt c ready start { c with pc := .exited 1 }
  | again : c.pc = .testHalt → c.check ≠ N →
      ChildStep N ready start halt c ready start { c with pc := .getHalt }
  | stop : c.pc = .testHalt → c.check = N →
      ChildStep N ready start halt c ready start { c with pc := .exited 0 }
  | getHalt : c.pc = .getHalt → ChildStep N ready start halt c ready start
      { c with check := halt.value, pc := .create 0 }
  | create (j : ℕ) (hj : j < M) : c.pc = .create j → ChildStep N ready start halt c ready start
      { c with thread := update c.thread ⟨j, hj⟩ .waitSem, pc := .create (j + 1) }
  | created (j : ℕ) : c.pc = .create j → ¬ j < M →
      ChildStep N ready start halt c ready start { c with pc := .join 0 }
  | join (j : ℕ) (hj : j < M) : c.pc = .join j → c.thread ⟨j, hj⟩ = .done →
      ChildStep N ready start halt c ready start
        { c with thread := update c.thread ⟨j, hj⟩ .absent, pc := .join (j + 1) }
  | joined (j : ℕ) : c.pc = .join j → ¬ j < M →
      ChildStep N ready start halt c ready start { c with pc := .testHalt, rounds := c.rounds + 1 }

variable {ready start halt ready' start' : NamedSem} {c c' : Child M}

theorem child_step (h : childProcess N ready start halt c = some (ready', start', c')) :
    ChildStep N ready start halt c ready' start' c' := by
  unfold childProcess at h
  cases hpc : c.pc with
  | openReady =>
    simp only [hpc] at h
    split_ifs at h with hlinked
    · cases h
      exact .openReady hpc hlinked
    · cases h
      exact .noReady hpc (Bool.eq_false_iff.mpr hlinked)
  | openStart =>
    simp only [hpc] at h
    split_ifs at h with hlinked
    · cases h
      exact .openStart hpc hlinked
    · cases h
      exact .noStart hpc (Bool.eq_false_iff.mpr hlinked)
  | openHalt =>
    simp only [hpc] at h
    split_ifs at h with hlinked
    · cases h
      exact .openHalt hpc hlinked
    · cases h
      exact .noHalt hpc (Bool.eq_false_iff.mpr hlinked)
  | waitStart =>
    simp only [hpc] at h
    split_ifs at h with hpos
    cases h
    exact .waitStart hpc hpos
  | testHalt =>
    simp only [hpc] at h
    split_ifs at h with hcheck
    · cases h
      exact .again hpc hcheck
    · cases h
      exact .stop hpc (not_not.mp hcheck)
  | create j =>
    simp only [hpc] at h
    split at h
    · next hj =>
      cases h
      exact .create j hj hpc
    · next hj =>
      cases h
      exact .created j hpc hj
  | join j =>
    simp only [hpc] at h
    split at h
    · next hj =>
      split_ifs at h with hdone
      cases h
      exact .join j hj hpc hdone
    · next hj =>
      cases h
      exact .joined j hpc hj
  | postReady =>
    rw [hpc] at h
    cases h
    exact .postReady hpc
  | getHalt =>
    rw [hpc] at h
    cases h
    exact .getHalt hpc
  | notForked | exited status =>
    rw [hpc] at h
    cases h

theorem childProcess_ok (h : childProcess N ready start halt c = some (ready', start', c'))
    (hc : c.Ok) : c'.Ok := by
  obtain ⟨hfilled, hlo, hcreated, hlock⟩ := id hc
  have hsem := hc.sem_le
  cases child_step h with
  | create j hj hpc =>
    rw [hpc] at hfilled
    have htally : tally ThreadPc.inside (update c.thread ⟨j, hj⟩ .waitSem) = c.inside :=
      Filled.tally_create hfilled hj rfl
    refine ⟨Filled.create hfilled hj, Nat.zero_le _, hj, ?_⟩
    show c.fileSem + tally ThreadPc.inside (update c.thread ⟨j, hj⟩ .waitSem) ≤ 1
    rwa [htally]
  | created j hpc hj =>
    rw [hpc] at hfilled hcreated
    obtain rfl : j = M := Nat.le_antisymm hcreated (Nat.le_of_not_lt hj)
    exact ⟨hfilled, Nat.zero_le _, le_rfl, hlock⟩
  | join j hj hpc hdone =>
    rw [hpc] at hfilled
    have htally : tally ThreadPc.inside (update c.thread ⟨j, hj⟩ .absent) = c.inside :=
      tally_join hdone rfl
    refine ⟨Filled.join hfilled hj, hj, le_rfl, ?_⟩
    show c.fileSem + tally ThreadPc.inside (update c.thread ⟨j, hj⟩ .absent) ≤ 1
    rwa [htally]
  | joined j hpc hj =>
    rw [hpc] at hfilled hlo
    obtain rfl : j = M := Nat.le_antisymm hlo (Nat.le_of_not_lt hj)
    exact .of_filled (Filled.all_joined hfilled) rfl rfl hsem
  | openReady hpc _ | noReady hpc _ | postReady hpc | openStart hpc _ | noStart hpc _
  | waitStart hpc _ | openHalt hpc _ | noHalt hpc _ | again hpc _ | stop hpc _ | getHalt hpc =>
    rw [hpc] at hfilled
    exact .of_filled hfilled rfl rfl hsem

end Point

/-! ### What a step does to the state -/

section States

variable {N M : ℕ} {check : ℤ} {checks : Fin N → ℤ} {s s' : State N M} {i : Fin N} {j : Fin M}

theorem child_eq_some : child s i = some s' ↔ ∃ ready start c,
    childProcess N s.ready s.start s.halt (s.child i) = some (ready, start, c) ∧
      { s with ready := ready, start := start, child := update s.child i c } = s' := by
  simp only [child, Option.map_eq_some_iff, Prod.exists]

theorem thread_eq_some : thread s i j = some s' ↔ ∃ sem log pc,
    thread_function i (s.child i).fileSem s.log ((s.child i).thread j) = some (sem, log, pc) ∧
      { s with
        log := log
        child := update s.child i
          { s.child i with fileSem := sem, thread := update (s.child i).thread j pc } } = s' := by
  simp only [thread, Option.map_eq_some_iff, Prod.exists]

/-- A step of `main`, `mainProcess` and `parseOutput`, with what it has found. -/
inductive MainStep (s : State N M) : State N M → Prop
  | fork (i : ℕ) (hi : i < N) : s.main = .fork i → MainStep s { s with
      child := update s.child ⟨i, hi⟩ ((s.child ⟨i, hi⟩).forked s.fileSem)
      main := .fork (i + 1) }
  | forked (i : ℕ) : s.main = .fork i → ¬ i < N → MainStep s { s with main := .openReady }
  | openReady : s.main = .openReady → s.ready.linked = true →
      MainStep s { s with main := .testReady }
  | noReady : s.main = .openReady → s.ready.linked = false → MainStep s { s with main := .failed }
  | poll : s.main = .testReady → s.check ≠ N → MainStep s { s with main := .getReady }
  | polled : s.main = .testReady → s.check = N → MainStep s { s with main := .openStart }
  | getReady : s.main = .getReady →
      MainStep s { s with check := s.ready.value, main := .testReady }
  | openStart : s.main = .openStart → s.start.linked = true →
      MainStep s { s with main := .postStart 0 }
  | noStart : s.main = .openStart → s.start.linked = false → MainStep s { s with main := .failed }
  | postStart (i : ℕ) : s.main = .postStart i → i < N →
      MainStep s { s with start := s.start.post, main := .postStart (i + 1) }
  | started (i : ℕ) : s.main = .postStart i → ¬ i < N → MainStep s { s with main := .sleep }
  | sleep : s.main = .sleep → MainStep s { s with main := .openHalt }
  | openHalt : s.main = .openHalt → s.halt.linked = true →
      MainStep s { s with main := .postHalt 0 }
  | noHalt : s.main = .openHalt → s.halt.linked = false → MainStep s { s with main := .failed }
  | postHalt (i : ℕ) : s.main = .postHalt i → i < N →
      MainStep s { s with halt := s.halt.post, main := .postHalt (i + 1) }
  | halted (i : ℕ) : s.main = .postHalt i → ¬ i < N → MainStep s { s with main := .unlinkReady }
  | unlinkReady : s.main = .unlinkReady →
      MainStep s { s with ready := s.ready.unlink, main := .unlinkStart }
  | unlinkStart : s.main = .unlinkStart →
      MainStep s { s with start := s.start.unlink, main := .unlinkHalt }
  | unlinkHalt : s.main = .unlinkHalt →
      MainStep s { s with halt := s.halt.unlink, main := .parse 0 }
  | parse (k : ℕ) (index : CInt) : s.main = .parse k → (readInts s.log.bytes)[k]? = some index →
      MainStep s { s with reads := s.reads ++ [index], main := .parse (k + 1) }
  | parsed (k : ℕ) : s.main = .parse k → (readInts s.log.bytes)[k]? = none →
      MainStep s { s with main := .done }

theorem main_step (h : mainProcess s = some s') : MainStep s s' := by
  unfold mainProcess at h
  cases hmain : s.main with
  | fork i =>
    simp only [hmain] at h
    split at h
    · next hi =>
      cases h
      exact .fork i hi hmain
    · next hi =>
      cases h
      exact .forked i hmain hi
  | openReady =>
    simp only [hmain] at h
    split_ifs at h with hlinked
    · cases h
      exact .openReady hmain hlinked
    · cases h
      exact .noReady hmain (Bool.eq_false_iff.mpr hlinked)
  | testReady =>
    simp only [hmain] at h
    split_ifs at h with hcheck
    · cases h
      exact .poll hmain hcheck
    · cases h
      exact .polled hmain (not_not.mp hcheck)
  | openStart =>
    simp only [hmain] at h
    split_ifs at h with hlinked
    · cases h
      exact .openStart hmain hlinked
    · cases h
      exact .noStart hmain (Bool.eq_false_iff.mpr hlinked)
  | postStart i =>
    simp only [hmain] at h
    split_ifs at h with hi
    · cases h
      exact .postStart i hmain hi
    · cases h
      exact .started i hmain hi
  | openHalt =>
    simp only [hmain] at h
    split_ifs at h with hlinked
    · cases h
      exact .openHalt hmain hlinked
    · cases h
      exact .noHalt hmain (Bool.eq_false_iff.mpr hlinked)
  | postHalt i =>
    simp only [hmain] at h
    split_ifs at h with hi
    · cases h
      exact .postHalt i hmain hi
    · cases h
      exact .halted i hmain hi
  | parse k =>
    simp only [hmain] at h
    split at h
    · next index hindex =>
      cases h
      exact .parse k index hmain hindex
    · next hend =>
      cases h
      exact .parsed k hmain hend
  | getReady =>
    rw [hmain] at h
    cases h
    exact .getReady hmain
  | sleep =>
    rw [hmain] at h
    cases h
    exact .sleep hmain
  | unlinkReady =>
    rw [hmain] at h
    cases h
    exact .unlinkReady hmain
  | unlinkStart =>
    rw [hmain] at h
    cases h
    exact .unlinkStart hmain
  | unlinkHalt =>
    rw [hmain] at h
    cases h
    exact .unlinkHalt hmain
  | done | failed =>
    rw [hmain] at h
    cases h

/-- `mainProcess` leaves the log and its own `file_sem` alone, and changes no child
but the one it forks. -/
theorem mainProcess_frame (h : mainProcess s = some s') :
    s'.log = s.log ∧ s'.fileSem = s.fileSem ∧
      ((∃ k, s.main = .fork k ∧ s'.main = .fork (k + 1) ∧ ∃ hk : k < N,
          s'.child = update s.child ⟨k, hk⟩ ((s.child ⟨k, hk⟩).forked s.fileSem)) ∨
        s'.child = s.child ∧ ∀ k, s'.main ≠ .fork k) := by
  cases main_step h with
  | fork k hk hmain => exact ⟨rfl, rfl, .inl ⟨k, hmain, rfl, hk, rfl⟩⟩
  | forked k hmain _ | openReady hmain _ | noReady hmain _ | poll hmain _ | polled hmain _
  | getReady hmain | openStart hmain _ | noStart hmain _ | postStart k hmain _ | started k hmain _
  | sleep hmain | openHalt hmain _ | noHalt hmain _ | postHalt k hmain _ | halted k hmain _
  | unlinkReady hmain | unlinkStart hmain | unlinkHalt hmain | parse k index hmain _
  | parsed k hmain _ =>
    exact ⟨rfl, rfl, .inr ⟨rfl, fun _ => MainPc.noConfusion⟩⟩

/-- Children are forked in order and well formed, and the log is made of whole
records. -/
structure Inv (checks : Fin N → ℤ) (s : State N M) : Prop where
  unborn : ∀ k, s.main = .fork k → ∀ i : Fin N, k ≤ i.val → s.child i = .unborn (checks i)
  fileSem : s.fileSem = 1
  ok : ∀ i, (s.child i).Ok
  whole : s.log.Whole

theorem inv_initial : Inv checks (initial check checks : State N M) where
  unborn _ _ _ _ := rfl
  fileSem := rfl
  ok i := Child.ok_unborn (checks i)
  whole := Log.whole_empty

/-- A step that changes one child, which has been forked. -/
theorem Inv.of_child (hs : Inv checks s) {c : Child M} (hchild : s'.child = update s.child i c)
    (hmain : s'.main = s.main) (hsem : s'.fileSem = s.fileSem)
    (hborn : (s.child i).pc ≠ .notForked) (hok : c.Ok) (hwhole : s'.log.Whole) :
    Inv checks s' := by
  refine ⟨?_, hsem.trans hs.fileSem, ?_, hwhole⟩
  · intro k hk l hl
    rw [hmain] at hk
    have hunborn := hs.unborn k hk l hl
    have hne : l ≠ i := by
      rintro rfl
      rw [hunborn] at hborn
      exact hborn rfl
    rw [hchild, Function.update_of_ne hne, hunborn]
  · rw [hchild]
    exact (Function.forall_update_iff s.child fun _ c => c.Ok).mpr ⟨hok, fun k _ => hs.ok k⟩

theorem Inv.mainProcess (hs : Inv checks s) (h : mainProcess s = some s') : Inv checks s' := by
  obtain ⟨hlog, hsem, ⟨k, hmain, hmain', hk, hchild⟩ | ⟨hchild, hmain'⟩⟩ := mainProcess_frame h
  · refine ⟨?_, hsem.trans hs.fileSem, ?_, hlog ▸ hs.whole⟩
    · intro l hl i hi
      rw [hmain'] at hl
      cases hl
      have hne : i ≠ ⟨k, hk⟩ := by
        rintro rfl
        exact absurd hi (Nat.not_succ_le_self k)
      rw [hchild, Function.update_of_ne hne]
      exact hs.unborn k hmain i (by omega)
    · rw [hchild, hs.unborn k hmain ⟨k, hk⟩ le_rfl, hs.fileSem]
      exact (Function.forall_update_iff s.child fun _ c => c.Ok).mpr
        ⟨.of_filled (filled_absent 0) rfl rfl le_rfl, fun i _ => hs.ok i⟩
  · refine ⟨?_, hsem.trans hs.fileSem, ?_, hlog ▸ hs.whole⟩
    · intro k hk
      exact absurd hk (hmain' k)
    · intro i
      rw [hchild]
      exact hs.ok i

theorem Inv.child (hs : Inv checks s) (h : child s i = some s') : Inv checks s' := by
  obtain ⟨ready, start, c, hc, rfl⟩ := child_eq_some.mp h
  refine hs.of_child rfl rfl rfl ?_ (childProcess_ok hc (hs.ok i)) hs.whole
  intro hpc
  rw [childProcess, hpc] at hc
  cases hc

theorem Inv.thread (hs : Inv checks s) (h : thread s i j = some s') : Inv checks s' := by
  obtain ⟨sem, log, pc, hf, rfl⟩ := thread_eq_some.mp h
  obtain ⟨hsem, -, hne, hne'⟩ := thread_function_spec hf
  obtain ⟨hfilled, hlo, hcreated, hlock⟩ := hs.ok i
  refine hs.of_child rfl rfl rfl ?_ ⟨hfilled.move hne hne', hlo, hcreated, ?_⟩
    (thread_function_whole hf hs.whole)
  · intro hpc
    rcases (hs.ok i).of_thread hne with ⟨k, hk⟩ | ⟨k, hk⟩ <;> rw [hpc] at hk <;> cases hk
  · have htally := tally_update ThreadPc.inside (s.child i).thread j pc
    simp only [Child.inside] at hlock ⊢
    omega

theorem Inv.step {t : Agent N M} (hs : Inv checks s) (h : step s t = some s') : Inv checks s' := by
  cases t with
  | main => exact hs.mainProcess h
  | child i => exact hs.child h
  | thread i j => exact hs.thread h

theorem inv (h : (program check checks).Reachable s) : Inv checks s := by
  refine h.invariant (I := Inv checks) ?_ fun s t s' _ hs hstep => hs.step hstep
  rintro s rfl
  exact inv_initial

/-- **Within one child the lock excludes.** -/
theorem sole_inside_child {k : Fin M} (h : (program check checks).Reachable s)
    (hj : ((s.child i).thread j).inside = 1) (hk : ((s.child i).thread k).inside = 1) :
    j = k := by
  have hlock := ((inv h).ok i).lock
  exact tally_sole (f := ThreadPc.inside) ((Nat.le_add_left _ _).trans hlock) hj hk

end States

end Polling
