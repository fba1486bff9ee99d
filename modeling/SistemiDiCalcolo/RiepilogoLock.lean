/-
The lock of the log in the riepilogo programs.

The token of `critical_section` is with the semaphore, with one thread, or
gone: a process that `handle_error` ends inside the critical section takes it
along.

* `inv` — where the token is, also when an `open` of the log fails;
* `dead_lock` — a run in which it is gone and a thread of a live child waits;
* `lock_or_failed` — until a child fails the lock is held by one thread or free;
  after that nobody enters the critical section any more.
-/
import SistemiDiCalcolo.Riepilogo

open Function (update)
open AccessLog

namespace Riepilogo

variable {n m : ℕ} {v : Version} {s s' : State n m} {i : Fin n} {j : Fin m}

/-- What a child has of the token: a thread inside, or the token lost with it. -/
def Child.held (c : Child m) : ℕ := c.inside + c.pc.failed

/-- Every child is well formed, the token of the lock is accounted for, and the log
is made of whole records. -/
structure Inv (s : State n m) : Prop where
  forked : ∀ i, (s.child i).pc = .notForked ↔ s.main.forked n ≤ i.val
  ok : ∀ i, (s.child i).Ok
  lock : s.criticalSection + tally Child.held s.child = 1
  whole : s.log.Whole

theorem Child.held_eq_zero {c : Child m} (hc : c.Ok) (hcreated : c.pc.created m = 0)
    (hlo : c.pc.lo = 0) (hfailed : c.pc.failed = 0) : c.held = 0 := by
  have hfilled := hc.filled
  rw [hcreated, hlo] at hfilled
  rw [held, inside, hfilled.tally_zero rfl, hfailed]

theorem inv_start : Inv (start : State n m) where
  forked _ := ⟨fun _ => Nat.zero_le _, fun _ => rfl⟩
  ok _ := Child.ok_unborn
  lock := by
    have hzero : tally Child.held (start : State n m).child = 0 :=
      tally_eq_zero.mpr fun _ => Child.held_eq_zero Child.ok_unborn rfl rfl rfl
    rw [hzero]
    rfl
  whole := Log.whole_empty

/-- A step that changes one forked child, and the semaphore with it. -/
theorem Inv.of_child (hs : Inv s) {c : Child m} (hchild : s'.child = update s.child i c)
    (hmain : s'.main.forked n = s.main.forked n)
    (hforked : (s.child i).pc ≠ .notForked ∧ c.pc ≠ .notForked) (hok : c.Ok)
    (hlock : s'.criticalSection + c.held = s.criticalSection + (s.child i).held)
    (hwhole : s'.log.Whole) : Inv s' := by
  refine ⟨?_, ?_, ?_, hwhole⟩
  · rw [hmain, hchild]
    refine (Function.forall_update_iff s.child fun k c => c.pc = .notForked ↔
      s.main.forked n ≤ k.val).mpr ⟨?_, fun k _ => hs.forked k⟩
    exact ⟨fun h => absurd h hforked.2, fun h => absurd ((hs.forked i).mpr h) hforked.1⟩
  · rw [hchild]
    exact (Function.forall_update_iff s.child fun _ c => c.Ok).mpr ⟨hok, fun k _ => hs.ok k⟩
  · have htally := tally_update Child.held s.child i c
    have := hs.lock
    rw [hchild]
    omega

/-- The step in which the main process forks child `k`. -/
theorem Inv.fork (hs : Inv s) {k : ℕ} (hmain : s.main = .fork k) (hmain' : s'.main = .fork (k + 1))
    (hk : k < n) (hchild : s'.child = update s.child ⟨k, hk⟩ .start)
    (hsem : s'.criticalSection = s.criticalSection) (hlog : s'.log = s.log) : Inv s' := by
  have hforked := hs.forked
  rw [hmain] at hforked
  have hpc := (hforked ⟨k, hk⟩).mpr le_rfl
  refine ⟨?_, ?_, ?_, hlog ▸ hs.whole⟩
  · rw [hmain', hchild]
    refine (Function.forall_update_iff s.child fun i c => c.pc = .notForked ↔ k + 1 ≤ i.val).mpr
      ⟨by simp [Child.start], fun i hi => ?_⟩
    have hne : i.val ≠ k := fun heq => hi (Fin.ext heq)
    rw [hforked i, MainPc.forked]
    omega
  · rw [hchild]
    exact (Function.forall_update_iff s.child fun _ c => c.Ok).mpr
      ⟨Child.ok_start, fun i _ => hs.ok i⟩
  · have htally := tally_update Child.held s.child ⟨k, hk⟩ .start
    have hheld := Child.held_eq_zero (hs.ok ⟨k, hk⟩) (by rw [hpc]; rfl) (by rw [hpc]; rfl)
      (by rw [hpc]; rfl)
    have hstart := Child.held_eq_zero (m := m) Child.ok_start rfl rfl rfl
    have := hs.lock
    rw [hsem, hchild]
    omega

theorem Inv.main_process (hs : Inv s) (h : main_process v s = some s') : Inv s' := by
  obtain ⟨hlog, hsem⟩ := main_process_frame h
  rcases main_process_child h with ⟨k, hmain, hmain', hk, hchild⟩ | ⟨hchild, hforked⟩
  · exact hs.fork hmain hmain' hk hchild hsem hlog
  · refine ⟨?_, ?_, ?_, hlog ▸ hs.whole⟩
    · intro i
      have := i.isLt
      rw [hchild, hs.forked i]
      omega
    · rw [hchild]
      exact hs.ok
    · rw [hchild, hsem]
      exact hs.lock

theorem Inv.wait (hs : Inv s) (h : wait s i = some s') : Inv s' := by
  obtain ⟨k, status, hmain, -, hpc, rfl⟩ := wait_eq_some.mp h
  obtain ⟨hfilled, -, -, -, hrounds, hpasses⟩ := hs.ok i
  rw [hpc] at hfilled hrounds hpasses
  refine hs.of_child rfl ?_ ⟨by rw [hpc]; simp, by simp⟩
    (.of_filled hfilled rfl rfl hrounds hpasses) ?_ hs.whole
  · rw [hmain]
    split <;> rfl
  · rw [Child.held, Child.held, hpc]
    rfl

theorem Inv.child (hs : Inv s) (h : child v s i = some s') : Inv s' := by
  obtain ⟨ready, start, c, hc, rfl⟩ := child_eq_some.mp h
  refine hs.of_child rfl rfl (child_process_forked hc) (child_process_ok hc (hs.ok i)) ?_ hs.whole
  rw [Child.held, Child.held, child_process_inside hc (hs.ok i), (child_process_tokens hc).2.2.2]

/-- A child in its loop has been forked, and has not failed. -/
theorem Child.Ok.running {c : Child m} (hc : c.Ok) (hj : c.thread j ≠ .absent) :
    c.pc ≠ .notForked ∧ c.pc.failed = 0 ∧ c.pc.passed = 1 := by
  rcases hc.of_thread hj with ⟨k, hpc⟩ | ⟨k, hpc⟩ <;> simp [hpc]

theorem Inv.thread (hs : Inv s) (h : thread s i j = some s') : Inv s' := by
  obtain ⟨sem, log, pc, hf, rfl⟩ := thread_eq_some.mp h
  obtain ⟨hsem, hlog, hne, hne'⟩ := thread_function_spec hf
  have hforked := ((hs.ok i).running hne).1
  refine hs.of_child rfl rfl ⟨hforked, hforked⟩ ((hs.ok i).thread hne hne' ?_) ?_
    (thread_function_whole hf hs.whole)
  · rcases hlog with ⟨-, hp⟩ | ⟨-, hp⟩ <;> omega
  · have htally := tally_update ThreadPc.inside (s.child i).thread j pc
    rw [Child.held, Child.held, Child.inside, Child.inside]
    dsimp only
    omega

/-- The token of the lock is with one child at most. -/
theorem Inv.held_le (hs : Inv s) (i : Fin n) : (s.child i).held ≤ 1 := by
  have hle := le_tally Child.held s.child i
  have := hs.lock
  omega

/-- A process ended inside the critical section takes the token along. -/
theorem Inv.openFails (hs : Inv s) (h : openFails s i j = some s') : Inv s' := by
  unfold Riepilogo.openFails at h
  split at h <;> cases h
  next hopen =>
    have hok := hs.ok i
    obtain ⟨hforked, hfailed, hpassed⟩ := hok.running (j := j) (by rw [hopen]; simp)
    refine hs.of_child rfl rfl ⟨hforked, by simp⟩
      (.of_filled (filled_absent 0) rfl rfl (fun h => by cases h) ?_) ?_ hs.whole
    · rw [hok.passes, hpassed]
      rfl
    · -- the thread that fails is the one that has the token
      have hle := le_tally ThreadPc.inside (s.child i).thread j
      have hheld := hs.held_le i
      have hzero : tally ThreadPc.inside (fun _ : Fin m => ThreadPc.absent) = 0 :=
        (filled_absent 0).tally_zero rfl
      rw [hopen] at hle
      simp only [Child.held, Child.inside, hzero, ThreadPc.inside, ChildPc.failed]
        at hle hheld ⊢
      simp only [Nat.one_ne_zero, if_false]
      omega

/-- **The account of the lock**, also when an `open` of the log fails. -/
theorem inv (h : (faulty v n m).Reachable s) : Inv s := by
  refine h.invariant (I := Inv) ?_ fun s t s' _ hs hstep => ?_
  · rintro s rfl
    exact inv_start
  · rcases t with (_ | i | i | ⟨i, j⟩) | ⟨i, j⟩
    · exact hs.main_process hstep
    · exact hs.wait hstep
    · exact hs.child hstep
    · exact hs.thread hstep
    · exact hs.openFails hstep

/-! ### Where the token is -/

/-- Exactly one thread, over all children, is between `sem_wait` and `sem_post`.
The threads of a process that has ended are `absent`. -/
def SoleInside (s : State n m) : Prop :=
  ∃ i j, ((s.child i).thread j).inside = 1 ∧
    ∀ k l, ((s.child k).thread l).inside = 1 → k = i ∧ l = j

/-- Nobody is inside the critical section. -/
def NobodyInside (s : State n m) : Prop := ∀ i j, ((s.child i).thread j).inside = 0

theorem Child.inside_le_held (c : Child m) (j : Fin m) : (c.thread j).inside ≤ c.held :=
  (le_tally ThreadPc.inside c.thread j).trans (Nat.le_add_right _ _)

/-- With the token in the semaphore, nobody is inside. -/
theorem Inv.nobody_of_free (hs : Inv s) (hsem : s.criticalSection = 1) : NobodyInside s := by
  intro i j
  have hzero : tally Child.held s.child = 0 := by
    have := hs.lock
    omega
  have hle := (s.child i).inside_le_held j
  have := tally_eq_zero.mp hzero i
  omega

/-- With the token neither in the semaphore nor lost, one thread is inside. -/
theorem Inv.sole_of_taken (hs : Inv s) (hsem : s.criticalSection = 0)
    (halive : ∀ i, (s.child i).pc.failed = 0) : SoleInside s := by
  have hone : tally Child.held s.child = 1 := by
    have := hs.lock
    omega
  obtain ⟨i, hi, hothers⟩ := exists_sole_of_tally_eq_one hone
  have hinside : tally ThreadPc.inside (s.child i).thread = 1 := by
    rw [Child.held, halive i] at hi
    exact hi
  obtain ⟨j, hj, hothers'⟩ := exists_sole_of_tally_eq_one hinside
  refine ⟨i, j, hj, ?_⟩
  intro k l hkl
  have hk : k = i := by
    by_contra hne
    have hle := (s.child k).inside_le_held l
    have := hothers k hne
    omega
  subst hk
  refine ⟨rfl, ?_⟩
  by_contra hne
  have := hothers' l hne
  omega

/-- Once a child has failed the token is lost. -/
theorem Inv.lost (hs : Inv s) (hi : (s.child i).pc.failed = 1) :
    s.criticalSection = 0 ∧ NobodyInside s ∧ ∀ k, k ≠ i → (s.child k).pc.failed = 0 := by
  have hlock := hs.lock
  have hle := le_tally Child.held s.child i
  have hheld : (s.child i).held = 1 := by
    rw [Child.held, hi] at hle ⊢
    omega
  -- there is one token, and the child that has failed took it along
  have hone : tally Child.held s.child = 1 := by omega
  have hsole : ∀ k, k ≠ i → (s.child k).held = 0 := by
    intro k hk
    obtain ⟨l, hl, hothers⟩ := exists_sole_of_tally_eq_one hone
    by_cases hil : i = l
    · exact hothers k (hil ▸ hk)
    · have := hothers i hil
      omega
  refine ⟨by omega, ?_, ?_⟩
  · intro k j
    have hle' := (s.child k).inside_le_held j
    by_cases hk : k = i
    · subst hk
      have := le_tally ThreadPc.inside (s.child k).thread j
      rw [Child.held, hi, Child.inside] at hheld
      omega
    · have := hsole k hk
      omega
  · intro k hk
    have := hsole k hk
    rw [Child.held] at this
    omega

/-! ### After a failure -/

/-- A child that has failed is never forked again, and `wait` keeps its status. -/
theorem failed_step {t : Agent n m ⊕ Fin n × Fin m} (hs : Inv s)
    (h : (faulty v n m).step s t = some s') (hi : (s.child i).pc.failed = 1) :
    (s'.child i).pc.failed = 1 := by
  have hupdate : ∀ {k : Fin n} {c : Child m}, s'.child = update s.child k c →
      ((s.child k).pc.failed = 1 → c.pc.failed = 1) → (s'.child i).pc.failed = 1 := by
    intro k c hchild hc
    rw [hchild]
    by_cases hk : i = k
    · rw [hk, Function.update_self]
      exact hc (hk ▸ hi)
    · rw [Function.update_of_ne hk, hi]
  -- who writes the program point of a child: `fork`, `wait`, and the child itself
  rcases t with (_ | k | k | ⟨k, j⟩) | ⟨k, j⟩
  case inl.main =>
    rcases main_process_child h with ⟨k, hmain, -, hk, hchild⟩ | ⟨hchild, -⟩
    · have hborn := (hs.forked ⟨k, hk⟩).mpr (by rw [hmain]; exact le_rfl)
      exact hupdate hchild fun hf => by rw [hborn] at hf; cases hf
    · rw [hchild, hi]
  case inl.reap =>
    obtain ⟨_, status, -, -, hpc, rfl⟩ := wait_eq_some.mp h
    exact hupdate rfl fun hf => by rw [hpc] at hf; exact hf
  case inl.child =>
    obtain ⟨_, _, c, hc, rfl⟩ := child_eq_some.mp h
    exact hupdate rfl (child_process_tokens hc).2.2.2.trans
  case inl.thread =>
    obtain ⟨_, _, pc, -, rfl⟩ := thread_eq_some.mp h
    exact hupdate rfl id
  case inr =>
    have hstep : openFails s k j = some s' := h
    unfold openFails at hstep
    split at hstep <;> cases hstep
    exact hupdate rfl fun _ => rfl

theorem failed_run {ts : List (Agent n m ⊕ Fin n × Fin m)} (h : (faulty v n m).Reachable s)
    (hrun : (faulty v n m).run s ts = some s') (hi : (s.child i).pc.failed = 1) :
    (s'.child i).pc.failed = 1 := by
  refine (Machine.run_invariant (I := fun u => (faulty v n m).Reachable u ∧
    (u.child i).pc.failed = 1) (fun u t u' hu hstep => ?_) hrun ⟨h, hi⟩).2
  exact ⟨hu.1.step t hstep, failed_step (inv hu.1) hstep hu.2⟩

/-- The schedule that gets thread 0 of child 0 inside and thread 0 of child 1 to its
`sem_wait`, and then lets the `open` of the first fail. -/
def lossSchedule : List (Agent 2 1 ⊕ Fin 2 × Fin 1) :=
  [.inl .main, .inl .main, .inl .main, .inl (.child 0), .inl (.child 1),
    .inl .main, .inl .main, .inl .main, .inl .main, .inl .main,
    .inl (.child 0), .inl (.child 0), .inl (.child 1), .inl (.child 1),
    .inl (.thread 0 0), .inr (0, 0)]

/-- **A failure locks out the others**: a child has failed inside the critical
section, and a thread of the other child waits with nobody alive to post. -/
theorem dead_lock : ∃ s, (faulty .lab07 2 1).Reachable s ∧ s.criticalSection = 0 ∧
    NobodyInside s ∧ (s.child 1).thread 0 = .waitSem ∧ (s.child 1).pc = .create 1 := by
  have hex : ∃ s, (faulty .lab07 2 1).Reachable s ∧ (s.child 0).pc.failed = 1 ∧
      (s.child 1).thread 0 = .waitSem ∧ (s.child 1).pc = .create 1 :=
    ⟨_, Machine.reachable_iff_run.mpr ⟨_, lossSchedule, rfl, rfl⟩, rfl, rfl, rfl⟩
  obtain ⟨s, hs, hfailed, hthread, hpc⟩ := hex
  obtain ⟨hsem, hnobody, -⟩ := (inv hs).lost hfailed
  exact ⟨s, hs, hsem, hnobody, hthread, hpc⟩

/-- It is not the case that the lock is always free or with one thread. -/
theorem lock_lost : ¬ ∀ (v : Version) (n m : ℕ) (s : State n m), (faulty v n m).Reachable s →
    s.criticalSection = 1 ∨ SoleInside s := by
  intro h
  obtain ⟨s, hs, hsem, hnobody, -⟩ := dead_lock
  rcases h .lab07 2 1 s hs with hfree | ⟨i, j, hij, -⟩
  · rw [hsem] at hfree
    cases hfree
  · rw [hnobody i j] at hij
    cases hij

/-- **The lock and a failing `open`**: while no child has failed, the lock is free
and nobody is inside, or it is taken and one thread is inside; once a child has
failed, it is the only one, the lock stays at 0 and nobody enters any more. -/
theorem lock_or_failed (v : Version) (n m : ℕ) (s : State n m)
    (h : (faulty v n m).Reachable s) :
    ((∀ i, (s.child i).pc.failed = 0) →
      s.criticalSection = 1 ∧ NobodyInside s ∨ s.criticalSection = 0 ∧ SoleInside s) ∧
    ∀ i, (s.child i).pc.failed = 1 → ∀ ts s', (faulty v n m).run s ts = some s' →
      (s'.child i).pc.failed = 1 ∧ (∀ k, k ≠ i → (s'.child k).pc.failed = 0) ∧
        s'.criticalSection = 0 ∧ NobodyInside s' := by
  constructor
  · intro halive
    have hs := inv h
    have hle : s.criticalSection ≤ 1 := by
      have := hs.lock
      omega
    rcases Nat.le_one_iff_eq_zero_or_eq_one.mp hle with hsem | hsem
    · exact .inr ⟨hsem, hs.sole_of_taken hsem halive⟩
    · exact .inl ⟨hsem, hs.nobody_of_free hsem⟩
  · intro i hi ts s' hrun
    have hi' := failed_run h hrun hi
    obtain ⟨hsem, hnobody, hothers⟩ := (inv (h.run hrun)).lost hi'
    exact ⟨hi', hothers, hsem, hnobody⟩

/-- The two halves in the run of `lossSchedule`: before its last step a thread is inside, and after
it the section is closed for good. -/
theorem lock_or_failed_loss :
    (∃ s, (faulty .lab07 2 1).run start lossSchedule.dropLast = some s ∧
      (s.child 0).thread 0 = .opening ∧
      (s.criticalSection = 1 ∧ NobodyInside s ∨ s.criticalSection = 0 ∧ SoleInside s)) ∧
    ∃ s, (faulty .lab07 2 1).run start lossSchedule = some s ∧ (s.child 1).thread 0 = .waitSem ∧
      ∀ ts s', (faulty .lab07 2 1).run s ts = some s' →
        (s'.child 0).pc.failed = 1 ∧ (∀ k, k ≠ 0 → (s'.child k).pc.failed = 0) ∧
          s'.criticalSection = 0 ∧ NobodyInside s' := by
  constructor
  · obtain ⟨s, hrun, halive, hthread⟩ : ∃ s,
        (faulty .lab07 2 1).run start lossSchedule.dropLast = some s ∧
          (∀ i, (s.child i).pc.failed = 0) ∧ (s.child 0).thread 0 = .opening :=
      ⟨_, rfl, by decide, rfl⟩
    have hreach := (Machine.Reachable.init (M := faulty .lab07 2 1) rfl).run hrun
    exact ⟨s, hrun, hthread, (lock_or_failed .lab07 2 1 s hreach).1 halive⟩
  · obtain ⟨s, hrun, hfailed, hthread⟩ : ∃ s, (faulty .lab07 2 1).run start lossSchedule = some s ∧
        (s.child 0).pc.failed = 1 ∧ (s.child 1).thread 0 = .waitSem := ⟨_, rfl, rfl, rfl⟩
    have hreach := (Machine.Reachable.init (M := faulty .lab07 2 1) rfl).run hrun
    exact ⟨s, hrun, hthread, (lock_or_failed .lab07 2 1 s hreach).2 0 hfailed⟩

end Riepilogo
