/-
Runs of the riepilogo program of Lab04.

The stages that the counterexamples to the intended order share, for any number
of children and any content of the variables `check`:

* `reachable_forked`, `reachable_ready` — all children forked, all of them ready;
* `reachable_started` — the main process past its poll, all start tokens given;
* `reachable_parse` — from there the main process alone gets to `parseOutput`;
* `reachable_inside` — a child alone gets a thread into its critical section.
-/
import SistemiDiCalcolo.Polling

open Function (update)
open AccessLog

/-- The first `k` agents have moved on from `b` to `a`. -/
def ladder {N : ℕ} {α : Type*} (k : ℕ) (a b : Fin N → α) : Fin N → α :=
  fun i => if i.val < k then a i else b i

section Ladder

variable {N k : ℕ} {α : Type*} {a b : Fin N → α}

theorem ladder_zero : ladder 0 a b = b := by
  funext i
  rw [ladder, if_neg (Nat.not_lt_zero _)]

theorem ladder_full : ladder N a b = a := by
  funext i
  rw [ladder, if_pos i.isLt]

theorem ladder_next (hk : k < N) : ladder k a b ⟨k, hk⟩ = b ⟨k, hk⟩ := by
  rw [ladder, if_neg (Nat.lt_irrefl k)]

theorem update_ladder (hk : k < N) :
    update (ladder k a b) ⟨k, hk⟩ (a ⟨k, hk⟩) = ladder (k + 1) a b := by
  funext i
  by_cases hi : i = ⟨k, hk⟩
  · rw [hi, Function.update_self, ladder, if_pos (Nat.lt_succ_self k)]
  · have hne : i.val ≠ k := fun heq => hi (Fin.ext heq)
    rw [Function.update_of_ne hi, ladder, ladder]
    by_cases hlt : i.val < k
    · rw [if_pos hlt, if_pos (by omega)]
    · rw [if_neg hlt, if_neg (by omega)]

end Ladder

namespace Polling

variable {N M : ℕ} {check : ℤ} {checks : Fin N → ℤ} {s : State N M} {i : Fin N}

/-! ### The children get ready -/

/-- A child just forked. -/
def Child.fresh (check : ℤ) : Child M := (unborn check).forked 1

/-- A child that has posted `ready_sem`. -/
def Child.ready (check : ℤ) : Child M :=
  { (fresh check : Child M) with pc := .openStart, posted := true }

/-- The first `k` children forked. -/
def forkingState (check : ℤ) (checks : Fin N → ℤ) (k : ℕ) : State N M :=
  { (initial check checks : State N M) with
    main := .fork k
    child := ladder k (fun i => .fresh (checks i)) fun i => .unborn (checks i) }

/-- All children forked, the first `k` of them ready. -/
def readyingState (check : ℤ) (checks : Fin N → ℤ) (k : ℕ) : State N M :=
  { (initial check checks : State N M) with
    ready := ⟨k, true⟩
    main := .openReady
    child := ladder k (fun i => .ready (checks i)) fun i => .fresh (checks i) }

theorem reachable_forking :
    (program check checks).Reachable (forkingState check checks N : State N M) := by
  refine Machine.Reachable.iterate ?_ ?_
  · rw [forkingState, ladder_zero]
    exact .init rfl
  · intro k hk
    refine ⟨[.main], ?_⟩
    rw [forkingState, forkingState, ← update_ladder hk]
    simp [Machine.run, program, step, mainProcess, hk, ladder_next hk, initial, Child.fresh]

theorem reachable_forked :
    (program check checks).Reachable (readyingState check checks 0 : State N M) := by
  refine reachable_forking.step .main ?_
  show mainProcess (forkingState check checks N) = some (readyingState check checks 0)
  rw [forkingState, readyingState, ladder_full, ladder_zero]
  simp [mainProcess, initial]

/-- All children ready, each after two steps of its own. -/
theorem reachable_ready :
    (program check checks).Reachable (readyingState check checks N : State N M) := by
  refine Machine.Reachable.iterate reachable_forked ?_
  intro k hk
  refine ⟨[.child ⟨k, hk⟩, .child ⟨k, hk⟩], ?_⟩
  rw [readyingState, readyingState, ← update_ladder hk]
  simp [Machine.run, program, step, child, childProcess, ladder_next hk, Child.fresh,
    Child.forked, Child.ready, NamedSem.post, initial]

/-! ### The main process alone -/

/-- The poll of `ready_sem`, once its value is `N`. -/
theorem reachable_openStart (h : (program check checks).Reachable s) (hmain : s.main = .testReady)
    (hvalue : s.ready.value = N) :
    (program check checks).Reachable { s with check := (N : ℤ), main := .openStart } := by
  by_cases hcheck : s.check = N
  · refine h.step .main ?_
    simp [program, step, mainProcess, hmain, hcheck]
  · refine h.run (?_ : (program check checks).run s [.main, .main, .main] = some _)
    simp [Machine.run, program, step, mainProcess, hmain, hcheck, hvalue]

/-- The loop that posts `start_sem`. -/
theorem reachable_sleep (h : (program check checks).Reachable s) (hmain : s.main = .postStart 0) :
    (program check checks).Reachable
      { s with start := ⟨s.start.value + N, s.start.linked⟩, main := .sleep } := by
  have hloop := Machine.Reachable.iterate (M := program check checks) (k := N)
    (f := fun k => { s with start := ⟨s.start.value + k, s.start.linked⟩, main := .postStart k })
    (by rwa [Nat.add_zero, ← hmain]) fun k hk => ⟨[.main], by
      simp [Machine.run, program, step, mainProcess, hk, NamedSem.post, Nat.add_assoc]⟩
  refine hloop.step .main ?_
  simp [program, step, mainProcess]

/-- The loop that posts `halt_sem`. -/
theorem reachable_unlinkReady (h : (program check checks).Reachable s)
    (hmain : s.main = .postHalt 0) :
    (program check checks).Reachable
      { s with halt := ⟨s.halt.value + N, s.halt.linked⟩, main := .unlinkReady } := by
  have hloop := Machine.Reachable.iterate (M := program check checks) (k := N)
    (f := fun k => { s with halt := ⟨s.halt.value + k, s.halt.linked⟩, main := .postHalt k })
    (by rwa [Nat.add_zero, ← hmain]) fun k hk => ⟨[.main], by
      simp [Machine.run, program, step, mainProcess, hk, NamedSem.post, Nat.add_assoc]⟩
  refine hloop.step .main ?_
  simp [program, step, mainProcess]

/-- All children ready, all start tokens given, nobody past the start. -/
def startedState (checks : Fin N → ℤ) : State N M :=
  { (initial N checks : State N M) with
    ready := ⟨N, true⟩
    start := ⟨N, true⟩
    main := .sleep
    child := fun i => .ready (checks i) }

theorem reachable_started :
    (program check checks).Reachable (startedState checks : State N M) := by
  have hready : (program check checks).Reachable
      { (readyingState check checks N : State N M) with main := .testReady } := by
    refine reachable_ready.step .main ?_
    simp [program, step, mainProcess, readyingState, initial]
  have hopen : (program check checks).Reachable
      { (readyingState check checks N : State N M) with
        check := (N : ℤ)
        main := .postStart 0 } := by
    refine (reachable_openStart hready rfl rfl).step .main ?_
    simp [program, step, mainProcess, readyingState, initial]
  have hsleep := reachable_sleep hopen rfl
  simpa [readyingState, startedState, initial, ladder_full] using hsleep

/-- The main process has removed the names and is about to read the log. -/
def parsing (s : State N M) : State N M :=
  { s with
    ready := ⟨s.ready.value, false⟩
    start := ⟨s.start.value, false⟩
    halt := ⟨s.halt.value + N, false⟩
    main := .parse 0 }

/-- From its sleep the main process alone gets to `parseOutput`. -/
theorem reachable_parse (h : (program check checks).Reachable s) (hmain : s.main = .sleep)
    (hhalt : s.halt.linked = true) : (program check checks).Reachable (parsing s) := by
  have hopen : (program check checks).run s [.main, .main] =
      some { s with main := .postHalt 0 } := by
    simp [Machine.run, program, step, mainProcess, hmain, hhalt]
  have hpost := reachable_unlinkReady (h.run hopen) rfl
  refine hpost.run (?_ : (program check checks).run _ [.main, .main, .main] = some _)
  simp [Machine.run, program, step, mainProcess, parsing, NamedSem.unlink]

/-! ### A child alone -/

/-- A child that has passed the start and opened `halt_sem`. -/
def Child.begun (c : Child M) : Child M := { c with pc := .testHalt, started := true }

/-- From the start a child alone gets to its loop. -/
theorem reachable_testHalt (h : (program check checks).Reachable s)
    (hpc : (s.child i).pc = .openStart) (hstart : s.start.linked = true)
    (hvalue : 0 < s.start.value) (hhalt : s.halt.linked = true) :
    (program check checks).Reachable
      { s with start := s.start.take, child := update s.child i (s.child i).begun } := by
  refine h.run (?_ : (program check checks).run s (List.replicate 3 (.child i)) = some _)
  simp [List.replicate, Machine.run, program, step, child, childProcess, hpc, hstart, hvalue, hhalt,
    NamedSem.take, Child.begun]

/-- A child with its thread 0 inside the critical section. -/
def Child.entered (c : Child M) (hM : 0 < M) (halt : NamedSem) : Child M :=
  { c with
    pc := .create 1
    check := halt.value
    fileSem := c.fileSem - 1
    thread := update c.thread ⟨0, hM⟩ .opening }

/-- From the test of its loop a child alone gets its thread 0 inside. -/
theorem reachable_entered (h : (program check checks).Reachable s) (hM : 0 < M)
    (hpc : (s.child i).pc = .testHalt) (hcheck : (s.child i).check ≠ N)
    (hsem : 0 < (s.child i).fileSem) :
    (program check checks).Reachable
      { s with child := update s.child i ((s.child i).entered hM s.halt) } := by
  refine h.run (?_ : (program check checks).run s
    [.child i, .child i, .child i, .thread i ⟨0, hM⟩] = some _)
  simp [Machine.run, program, step, child, childProcess, thread, thread_function, hpc, hcheck, hsem,
    hM, Child.entered]

/-- A child with `check` other than `N` gets its thread 0 inside, from the start on. -/
theorem reachable_inside (h : (program check checks).Reachable s) (hM : 0 < M)
    (hpc : (s.child i).pc = .openStart) (hstart : s.start.linked = true)
    (hvalue : 0 < s.start.value) (hhalt : s.halt.linked = true)
    (hcheck : (s.child i).check ≠ N) (hsem : 0 < (s.child i).fileSem) :
    (program check checks).Reachable
      { s with
        start := s.start.take
        child := update s.child i ((s.child i).begun.entered hM s.halt) } := by
  have hentered := reachable_entered (i := i)
    (reachable_testHalt h hpc hstart hvalue hhalt) hM (by simp [Child.begun])
    (by simpa [Child.begun] using hcheck) (by simpa [Child.begun] using hsem)
  simpa using hentered

/-- A thread inside the critical section alone writes its record. -/
theorem run_written {j : Fin M} (hpc : (s.child i).thread j = .opening) :
    (program check checks).run s [.thread i j, .thread i j] = some
      { s with
        log := s.log.write i
        child := update s.child i
          { s.child i with thread := update (s.child i).thread j .closing } } := by
  simp [Machine.run, program, step, thread, thread_function, hpc]

end Polling
