/-
What the riepilogo program of Lab04 puts in order, and what it does not.

The main process waits for the children at one point only, the poll of
`ready_sem`, and at that one only if its variable `check` does not happen to
contain `N` already.

* `reads_after_children_iff` — the log is read after the children have returned
  only when there are none;
* `names_available_iff` — the names are removed after the children have opened
  them only when there are none;
* `barrier_iff` — with the names in place, the start is a barrier exactly when no
  variable `check` contains `N` at first.
-/
import SistemiDiCalcolo.PollingRuns

open Function (update)
open AccessLog

namespace Polling

variable {N M : ℕ} {check : ℤ} {checks : Fin N → ℤ} {s s' : State N M} {i : Fin N}

/-! ### The log is read without waiting -/

/-- The child has returned from `childProcess`, or `handle_error` has ended it. -/
def ChildPc.Exited (c : ChildPc) : Prop := ∃ status, c = .exited status

/-- While the main process is in `parseOutput` all children have returned, and
nothing is appended to the log from then on. -/
def ReadsAfterChildren (M : ℕ) (check : ℤ) (checks : Fin N → ℤ) : Prop :=
  ∀ s : State N M, (program check checks).Reachable s → ∀ k, s.main = .parse k →
    (∀ i, (s.child i).pc.Exited) ∧
      ∀ ts s', (program check checks).run s ts = some s' → s'.log = s.log

/-- The main process gets to `parseOutput` with all children where they were when they
got ready. -/
theorem exists_parse (M : ℕ) (check : ℤ) (checks : Fin N → ℤ) :
    ∃ s : State N M, (program check checks).Reachable s ∧ s.main = .parse 0 ∧
      s.start.linked = false ∧ ∀ i, (s.child i).pc = .openStart :=
  ⟨_, reachable_parse reachable_started rfl rfl, rfl, rfl, fun _ => rfl⟩

theorem not_readsAfterChildren (hN : 0 < N) : ¬ ReadsAfterChildren M check checks := by
  intro h
  obtain ⟨s, hs, hmain, -, hpc⟩ := exists_parse M check checks
  obtain ⟨status, hexit⟩ := (h s hs 0 hmain).1 ⟨0, hN⟩
  rw [hpc] at hexit
  cases hexit

/-- A record can be appended after the main process has started to read. -/
theorem exists_append_after_parse (hM : 0 < M) (hcheck : checks i ≠ N) :
    ∃ s : State N M, (program check checks).Reachable s ∧ s.main = .parse 0 ∧
      ∃ ts s', (program check checks).run s ts = some s' ∧ s'.main = .parse 0 ∧
        s'.log.records = s.log.records ++ [i] := by
  have hstarted : (program check checks).Reachable (startedState checks : State N M) :=
    reachable_started
  have hinside := reachable_inside (i := i) hstarted hM rfl rfl (Nat.zero_lt_of_lt i.isLt) rfl
    hcheck Nat.one_pos
  have hparse := reachable_parse hinside rfl rfl
  refine ⟨_, hparse, rfl, _, _, run_written (i := i) (j := ⟨0, hM⟩) ?_, rfl, rfl⟩
  simp [parsing, Child.entered]

/-- With no children, nothing but the main process moves, and it does not write. -/
theorem run_log {checks : Fin 0 → ℤ} {s s' : State 0 M} {ts : List (Agent 0 M)}
    (h : (program check checks).run s ts = some s') : s'.log = s.log := by
  refine Machine.run_invariant (I := fun u => u.log = s.log) (fun u t u' hu hstep => ?_) h rfl
  cases t with
  | main => exact (mainProcess_frame hstep).1.trans hu
  | child i => exact i.elim0
  | thread i j => exact i.elim0

/-- **Reading before the children return**: the main process reads the log after
all children have returned only when there are none. -/
theorem reads_after_children_iff (N M : ℕ) (check : ℤ) (checks : Fin N → ℤ) :
    ReadsAfterChildren M check checks ↔ N = 0 := by
  constructor
  · intro h
    by_contra hne
    exact not_readsAfterChildren (Nat.pos_of_ne_zero hne) h
  · rintro rfl s - k -
    exact ⟨fun i => i.elim0, fun ts s' hrun => run_log hrun⟩

/-- The ten children and ten threads of the program, all `check` initially 0. -/
theorem reads_early_ten : ¬ ReadsAfterChildren (N := 10) 10 0 fun _ => 0 :=
  not_readsAfterChildren (Nat.succ_pos 9)

/-! ### The names are removed without waiting -/

/-- If child `i` is about to open a semaphore, the name of it is in place. -/
def Available (s : State N M) (i : Fin N) : Prop :=
  ((s.child i).pc = .openReady → s.ready.linked = true) ∧
    ((s.child i).pc = .openStart → s.start.linked = true) ∧
    ((s.child i).pc = .openHalt → s.halt.linked = true)

theorem exists_not_available (M : ℕ) (check : ℤ) (checks : Fin N → ℤ) (i : Fin N) :
    ∃ s : State N M, (program check checks).Reachable s ∧ ¬ Available s i := by
  obtain ⟨s, hs, -, hstart, hpc⟩ := exists_parse M check checks
  refine ⟨s, hs, ?_⟩
  intro h
  have hlinked := h.2.1 (hpc i)
  rw [hstart] at hlinked
  cases hlinked

/-- **The names of the semaphores**: in every run every child finds them in place
only when there is no child. -/
theorem names_available_iff (N M : ℕ) (check : ℤ) (checks : Fin N → ℤ) :
    (∀ s : State N M, (program check checks).Reachable s → ∀ i, Available s i) ↔ N = 0 := by
  constructor
  · intro h
    by_contra hne
    obtain ⟨s, hs, hi⟩ := exists_not_available M check checks ⟨0, Nat.pos_of_ne_zero hne⟩
    exact hi (h s hs _)
  · rintro rfl s - i
    exact i.elim0

/-- The ten children of the program: one may find the name of `start_sem` removed. -/
theorem names_removed_ten :
    ¬ ∀ s : State 10 10, (program 0 fun _ => 0).Reachable s → ∀ i, Available s i := by
  intro h
  obtain ⟨s, hs, hi⟩ := exists_not_available 10 0 (fun _ : Fin 10 => 0) (Fin.last 9)
  exact hi (h s hs _)

/-! ### The start -/

/-- The main process posts `start_sem` only when all children are ready, and a child
that has passed the start has completed a round when it exits. -/
structure Barrier (s : State N M) : Prop where
  posted : ∀ k, s.main = .postStart k → k < N → ∀ i, (s.child i).posted = true
  rounds : ∀ i, (s.child i).started = true → (s.child i).pc.Exited → 1 ≤ (s.child i).rounds

/-- The child that moves finds the name it opens in place. -/
def OpensLinked (s : State N M) (t : Agent N M) : Prop := ∀ i, t = .child i → Available s i

/-- What a child's variable and its rounds have to do with its program point, when
`check` is not `N` at first and every name is found. -/
def Child.Sound (N : ℕ) (c : Child M) : Prop :=
  match c.pc with
  | .notForked | .openReady | .postReady =>
    c.check ≠ N ∧ c.started = false ∧ c.posted = false
  | .openStart | .waitStart => c.check ≠ N ∧ c.started = false
  | .openHalt => c.check ≠ N
  | .testHalt => c.check = N → 1 ≤ c.rounds
  | .getHalt | .create _ | .join _ => True
  | .exited _ => 1 ≤ c.rounds

/-- 1 if the child has posted `ready_sem`. -/
def Child.token (c : Child M) : ℕ := if c.posted then 1 else 0

section Sound

variable {ready start halt ready' start' : NamedSem} {c c' : Child M}

/-- A child that finds its names stays sound, and posts `ready_sem` once. -/
theorem childProcess_sound (h : childProcess N ready start halt c = some (ready', start', c'))
    (hc : c.Sound N) (hready : c.pc = .openReady → ready.linked = true)
    (hstart : c.pc = .openStart → start.linked = true)
    (hhalt : c.pc = .openHalt → halt.linked = true) :
    c'.Sound N ∧ ready'.value + c.token = ready.value + c'.token ∧
      (c.posted = true → c'.posted = true) := by
  unfold Child.Sound at hc
  cases child_step h with
  | openReady hpc _ | openStart hpc _ =>
    simp only [hpc] at hc
    exact ⟨hc, rfl, id⟩
  | noReady hpc hno =>
    rw [hready hpc] at hno
    cases hno
  | noStart hpc hno =>
    rw [hstart hpc] at hno
    cases hno
  | noHalt hpc hno =>
    rw [hhalt hpc] at hno
    cases hno
  | postReady hpc =>
    simp only [hpc] at hc
    obtain ⟨hcheck, hstarted, hposted⟩ := hc
    exact ⟨⟨hcheck, hstarted⟩, by simp [Child.token, NamedSem.post, hposted], fun _ => rfl⟩
  | waitStart hpc _ =>
    simp only [hpc] at hc
    exact ⟨hc.1, rfl, id⟩
  | openHalt hpc _ =>
    simp only [hpc] at hc
    exact ⟨fun hcheck => absurd hcheck hc, rfl, id⟩
  | stop hpc hcheck =>
    simp only [hpc] at hc
    exact ⟨hc hcheck, rfl, id⟩
  | joined j hpc _ => exact ⟨fun _ => Nat.le_add_left 1 c.rounds, rfl, id⟩
  | again hpc _ | getHalt hpc | create j hj hpc | created j hpc _ | join j hj hpc _ =>
    exact ⟨trivial, rfl, id⟩

end Sound

/-- Past the poll, up to the last start token. -/
def MainPc.Starting (c : MainPc) : Prop := c = .openStart ∨ ∃ k, c = .postStart k

/-- The value of `ready_sem` is the number of children that have posted it, and the
main process leaves its poll with `N` in `check`. -/
structure BarrierInv (s : State N M) : Prop where
  sound : ∀ i, (s.child i).Sound N
  value : s.ready.value = tally Child.token s.child
  check : s.check = N → ∀ i, (s.child i).posted = true
  main : s.main.Starting → s.check = N

theorem barrierInv_initial (hcheck : check ≠ N) (hchecks : ∀ i, checks i ≠ N) :
    BarrierInv (initial check checks : State N M) where
  sound i := ⟨hchecks i, rfl, rfl⟩
  value := (tally_eq_zero.mpr fun _ => rfl).symm
  check h := absurd h hcheck
  main h := by rcases h with h | ⟨k, h⟩ <;> cases h

/-- What the main process does to `ready_sem` and to `check`. -/
theorem mainProcess_poll (h : mainProcess s = some s') :
    s'.ready.value = s.ready.value ∧ (s'.check = s.check ∨ s'.check = s.ready.value) ∧
      (s'.main.Starting → s'.check = s.check ∧ (s.check = N ∨ s.main.Starting)) := by
  cases main_step h with
  | polled hmain hcheck => exact ⟨rfl, .inl rfl, fun _ => ⟨rfl, .inl hcheck⟩⟩
  | openStart hmain _ | postStart k hmain _ =>
    exact ⟨rfl, .inl rfl, fun _ => ⟨rfl, .inr (by simp [MainPc.Starting, hmain])⟩⟩
  | getReady hmain => exact ⟨rfl, .inr rfl, by simp [MainPc.Starting]⟩
  | fork k hk hmain | forked k hmain _ | openReady hmain _ | noReady hmain _ | poll hmain _
  | noStart hmain _ | started k hmain _ | sleep hmain | openHalt hmain _ | noHalt hmain _
  | postHalt k hmain _ | halted k hmain _ | unlinkReady hmain | unlinkStart hmain
  | unlinkHalt hmain | parse k index hmain _ | parsed k hmain _ =>
    exact ⟨rfl, .inl rfl, by simp [MainPc.Starting]⟩

/-- A value of `N` means that everybody has posted. -/
theorem BarrierInv.posted_of_value (hs : BarrierInv s) (hvalue : s.ready.value = N) (i : Fin N) :
    (s.child i).posted = true := by
  have hone : (s.child i).token = 1 := by
    refine eq_one_of_card_le_tally (f := Child.token) (fun c => ?_) ?_ i
    · rw [Child.token]
      split_ifs <;> simp
    · rw [← hs.value, hvalue, Fintype.card_fin]
  rw [Child.token] at hone
  by_contra hne
  rw [if_neg hne] at hone
  cases hone

theorem BarrierInv.mainProcess (hs : BarrierInv s) (hinv : Inv checks s)
    (hchecks : ∀ i, checks i ≠ N) (h : mainProcess s = some s') : BarrierInv s' := by
  obtain ⟨hvalue, hcheck, hstarting⟩ := mainProcess_poll h
  -- in the poll the main process reads the value of `ready_sem`
  have hposted : s'.check = N → ∀ i, (s.child i).posted = true := by
    intro hN i
    rcases hcheck with heq | heq
    · exact hs.check (heq ▸ hN) i
    · exact hs.posted_of_value (by rw [heq] at hN; exact_mod_cast hN) i
  have hmain : s'.main.Starting → s'.check = N := by
    intro hst
    obtain ⟨heq, hN | hst'⟩ := hstarting hst
    · rw [heq, hN]
    · rw [heq, hs.main hst']
  obtain ⟨-, -, ⟨k, hfork, -, hk, hchild⟩ | ⟨hchild, -⟩⟩ := mainProcess_frame h
  · have hunborn := hinv.unborn k hfork ⟨k, hk⟩ le_rfl
    refine ⟨?_, ?_, ?_, hmain⟩
    · rw [hchild, hunborn]
      exact (Function.forall_update_iff s.child fun _ c => c.Sound N).mpr
        ⟨⟨hchecks _, rfl, rfl⟩, fun i _ => hs.sound i⟩
    · have htally := tally_update Child.token s.child ⟨k, hk⟩
        ((s.child ⟨k, hk⟩).forked s.fileSem)
      have htoken : ((s.child ⟨k, hk⟩).forked s.fileSem).token = (s.child ⟨k, hk⟩).token := rfl
      rw [htoken] at htally
      rw [hchild, hvalue, hs.value]
      omega
    · intro hN
      rw [hchild]
      exact (Function.forall_update_iff s.child fun _ c => c.posted = true).mpr
        ⟨hposted hN ⟨k, hk⟩, fun i _ => hposted hN i⟩
  · refine ⟨?_, ?_, ?_, hmain⟩
    · rw [hchild]
      exact hs.sound
    · rw [hchild, hvalue, hs.value]
    · rw [hchild]
      exact hposted

/-- A step of one child that keeps it sound, against the tokens of `ready_sem`. -/
theorem BarrierInv.of_child (hs : BarrierInv s) {c : Child M}
    (hchild : s'.child = update s.child i c) (hmain : s'.main = s.main)
    (hcheck : s'.check = s.check) (hsound : c.Sound N)
    (hvalue : s'.ready.value + (s.child i).token = s.ready.value + c.token)
    (hposted : (s.child i).posted = true → c.posted = true) : BarrierInv s' := by
  refine ⟨?_, ?_, ?_, ?_⟩
  · rw [hchild]
    exact (Function.forall_update_iff s.child fun _ c => c.Sound N).mpr
      ⟨hsound, fun k _ => hs.sound k⟩
  · have htally := tally_update Child.token s.child i c
    have := hs.value
    rw [hchild]
    omega
  · intro hN
    have hall := hs.check (hcheck ▸ hN)
    rw [hchild]
    exact (Function.forall_update_iff s.child fun _ c => c.posted = true).mpr
      ⟨hposted (hall i), fun k _ => hall k⟩
  · rw [hmain, hcheck]
    exact hs.main

theorem BarrierInv.child (hs : BarrierInv s) (hok : Available s i) (h : child s i = some s') :
    BarrierInv s' := by
  obtain ⟨ready, start, c, hc, rfl⟩ := child_eq_some.mp h
  obtain ⟨hsound, hvalue, hposted⟩ :=
    childProcess_sound hc (hs.sound i) hok.1 hok.2.1 hok.2.2
  exact hs.of_child rfl rfl rfl hsound hvalue hposted

theorem BarrierInv.thread {j : Fin M} (hs : BarrierInv s) (h : thread s i j = some s') :
    BarrierInv s' := by
  obtain ⟨sem, log, pc, -, rfl⟩ := thread_eq_some.mp h
  exact hs.of_child rfl rfl rfl (hs.sound i) rfl id

theorem barrier_inv (hcheck : check ≠ N) (hchecks : ∀ i, checks i ≠ N)
    (h : (program check checks).ReachableVia OpensLinked s) :
    Inv checks s ∧ BarrierInv s := by
  refine h.invariant (I := fun s => Inv checks s ∧ BarrierInv s) ?_ fun s t s' hs hok hstep => ?_
  · rintro s rfl
    exact ⟨inv_initial, barrierInv_initial hcheck hchecks⟩
  · refine ⟨hs.1.step hstep, ?_⟩
    cases t with
    | main => exact hs.2.mainProcess hs.1 hchecks hstep
    | child i => exact hs.2.child (hok i rfl) hstep
    | thread i j => exact hs.2.thread hstep

theorem BarrierInv.barrier (hs : BarrierInv s) : Barrier s where
  posted k hmain _ := hs.check (hs.main (.inr ⟨k, hmain⟩))
  rounds i _ hexit := by
    obtain ⟨status, hpc⟩ := hexit
    have hsound := hs.sound i
    rw [Child.Sound, hpc] at hsound
    exact hsound

/-! ### The contents of `check` -/

theorem childProcess_linked {ready start halt ready' start' : NamedSem} {c c' : Child M}
    (h : childProcess N ready start halt c = some (ready', start', c')) :
    ready'.linked = ready.linked ∧ start'.linked = start.linked := by
  cases child_step h <;> exact ⟨rfl, rfl⟩

/-- A name that has been removed does not come back. -/
theorem step_linked {t : Agent N M} (h : step s t = some s') :
    (s'.ready.linked = true → s.ready.linked = true) ∧
      (s'.start.linked = true → s.start.linked = true) ∧
      (s'.halt.linked = true → s.halt.linked = true) := by
  cases t with
  | main =>
    have hstep : mainProcess s = some s' := h
    cases main_step hstep <;> simp [NamedSem.post, NamedSem.unlink]
  | child i =>
    obtain ⟨ready, start, c, hc, rfl⟩ := child_eq_some.mp h
    obtain ⟨hready, hstart⟩ := childProcess_linked hc
    exact ⟨fun hl => hready ▸ hl, fun hl => hstart ▸ hl, id⟩
  | thread i j =>
    obtain ⟨sem, log, pc, -, rfl⟩ := thread_eq_some.mp h
    exact ⟨id, id, id⟩

/-- While the names are in place, every child has found them. -/
theorem via_of_linked (h : (program check checks).Reachable s) (hready : s.ready.linked = true)
    (hstart : s.start.linked = true) (hhalt : s.halt.linked = true) :
    (program check checks).ReachableVia OpensLinked s := by
  induction h with
  | init hs => exact .init hs
  | step t _ hstep ih =>
    obtain ⟨hr, hs, hh⟩ := step_linked hstep
    refine .step t (ih (hr hready) (hs hstart) (hh hhalt)) ?_ hstep
    exact fun i _ => ⟨fun _ => hr hready, fun _ => hs hstart, fun _ => hh hhalt⟩

/-- With `check` equal to `N` at first, the main process posts `start_sem` before any
child is ready. -/
theorem exists_post_before_ready (M : ℕ) (checks : Fin N → ℤ) (hcheck : check = N) :
    ∃ s : State N M, (program check checks).ReachableVia OpensLinked s ∧
      s.main = .postStart 0 ∧ ∀ i, (s.child i).posted = false := by
  have hforked : (program check checks).Reachable (readyingState check checks 0 : State N M) :=
    reachable_forked
  have hrun : (program check checks).run (readyingState check checks 0 : State N M)
      [.main, .main, .main] =
        some { (readyingState check checks 0 : State N M) with main := .postStart 0 } := by
    simp [Machine.run, program, step, mainProcess, readyingState, initial, hcheck]
  refine ⟨_, via_of_linked (hforked.run hrun) rfl rfl rfl, rfl, ?_⟩
  intro i
  rw [readyingState, ladder_zero]
  rfl

/-- With its `check` equal to `N` at first, a child exits without a round. -/
theorem exists_no_round (M : ℕ) (check : ℤ) (hcheck : checks i = N) :
    ∃ s : State N M, (program check checks).ReachableVia OpensLinked s ∧
      (s.child i).started = true ∧ (s.child i).pc.Exited ∧ (s.child i).rounds = 0 := by
  have hstarted : (program check checks).Reachable (startedState checks : State N M) :=
    reachable_started
  have hbegun := reachable_testHalt (i := i) hstarted rfl rfl (Nat.zero_lt_of_lt i.isLt) rfl
  have hexited : (program check checks).Reachable
      { (startedState checks : State N M) with
        start := (startedState checks : State N M).start.take
        child := update (startedState checks : State N M).child i
          { ((startedState checks : State N M).child i).begun with pc := .exited 0 } } := by
    refine hbegun.step (.child i) ?_
    simp [program, step, child, childProcess, Child.begun, startedState, Child.ready,
      Child.fresh, Child.forked, Child.unborn, hcheck]
  refine ⟨_, via_of_linked hexited rfl rfl rfl, ?_, ⟨0, ?_⟩, ?_⟩ <;>
    simp [Child.begun, startedState, Child.ready, Child.fresh, Child.forked, Child.unborn]

/-- **The start barrier**: in the runs in which every child finds the names it opens,
it holds exactly when no variable `check` contains `N` at first (or there is no
child). -/
theorem barrier_iff (N M : ℕ) (check : ℤ) (checks : Fin N → ℤ) :
    (∀ s : State N M, (program check checks).ReachableVia OpensLinked s → Barrier s) ↔
      N = 0 ∨ check ≠ N ∧ ∀ i, checks i ≠ N := by
  constructor
  · intro h
    by_cases hN : N = 0
    · exact .inl hN
    refine .inr ⟨?_, ?_⟩
    · intro hcheck
      obtain ⟨s, hs, hmain, hposted⟩ := exists_post_before_ready M checks hcheck
      have hpos := Nat.pos_of_ne_zero hN
      have hall := (h s hs).posted 0 hmain hpos ⟨0, hpos⟩
      rw [hposted] at hall
      cases hall
    · intro i hcheck
      obtain ⟨s, hs, hstarted, hexit, hrounds⟩ := exists_no_round M check hcheck
      have hone := (h s hs).rounds i hstarted hexit
      omega
  · rintro (rfl | ⟨hcheck, hchecks⟩) s hs
    · exact ⟨fun _ _ hk => absurd hk (Nat.not_lt_zero _), fun i => i.elim0⟩
    · exact (barrier_inv hcheck hchecks hs).2.barrier

/-- The ten children of the program, with 10 in the variable `check` of the main
process. -/
theorem barrier_fails_ten : ¬ ∀ (check : ℤ) (checks : Fin 10 → ℤ) (s : State 10 10),
    (program check checks).Reachable s → Barrier s := by
  intro h
  have hcheck : (10 : ℤ) = (10 : ℕ) := rfl
  obtain ⟨s, hs, hmain, hposted⟩ :=
    exists_post_before_ready 10 (fun _ : Fin 10 => 0) hcheck
  have hall := (h 10 (fun _ => 0) s hs.reachable).posted 0 hmain (Nat.succ_pos 9) (Fin.last 9)
  rw [hposted] at hall
  cases hall

/-- A child that finds `halt_sem` removed exits. -/
theorem step_openHalt (hpc : (s.child i).pc = .openHalt) (hhalt : s.halt.linked = false) :
    (program check checks).step s (.child i) =
      some { s with child := update s.child i { s.child i with pc := .exited 1 } } := by
  simp [program, step, child, childProcess, hpc, hhalt]

/-- Without the condition on the names, a child that has passed the start may find
`halt_sem` removed, and exit without a round. -/
theorem exists_started_no_name (M : ℕ) (check : ℤ) (checks : Fin N → ℤ) (i : Fin N) :
    ∃ s : State N M, (program check checks).Reachable s ∧
      (s.child i).started = true ∧ (s.child i).pc.Exited ∧ (s.child i).rounds = 0 := by
  have hstarted : (program check checks).Reachable (startedState checks : State N M) :=
    reachable_started
  have hpassed : (program check checks).Reachable
      { (startedState checks : State N M) with
        start := (startedState checks : State N M).start.take
        child := update (startedState checks : State N M).child i
          { (startedState checks : State N M).child i with
            pc := .openHalt
            started := true } } := by
    refine hstarted.run
      (?_ : (program check checks).run _ [.child i, .child i] = some _)
    have hpos : 0 < N := Nat.zero_lt_of_lt i.isLt
    simp [Machine.run, program, step, child, childProcess, startedState, Child.ready, Child.fresh,
      Child.forked, Child.unborn, NamedSem.take, hpos]
  have hparse := reachable_parse hpassed rfl rfl
  refine ⟨_, hparse.step (.child i) (step_openHalt (i := i) ?_ rfl), ?_, ⟨1, ?_⟩, ?_⟩ <;>
    simp [parsing, startedState, Child.ready, Child.fresh, Child.forked, Child.unborn]

/-- **The start barrier over all runs** holds only when there is no child. -/
theorem barrier_all_runs_iff (N M : ℕ) (check : ℤ) (checks : Fin N → ℤ) :
    (∀ s : State N M, (program check checks).Reachable s → Barrier s) ↔ N = 0 := by
  constructor
  · intro h
    by_contra hne
    obtain ⟨s, hs, hstarted, hexit, hrounds⟩ :=
      exists_started_no_name M check checks ⟨0, Nat.pos_of_ne_zero hne⟩
    have hone := (h s hs).rounds _ hstarted hexit
    omega
  · rintro rfl s -
    exact ⟨fun _ _ hk => absurd hk (Nat.not_lt_zero _), fun i => i.elim0⟩

end Polling
