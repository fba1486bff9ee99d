/-
The log of the riepilogo programs.

What a child's threads have written and have yet to write is what its rounds
owe: `m` records each.  Once `*data` is set a child finishes the round it is
in, or the only one it has before it, and no other.

* `log_inv` — the account of every child's records;
* `log_account` — mutual exclusion, and what the log holds when it is parsed;
* `bounded_after_stop` — at most `m` more records a child after `*data = 1`.
-/
import SistemiDiCalcolo.RiepilogoStart

open Function (update)
open AccessLog

namespace Riepilogo

variable {n m : ℕ} {v : Version} {s s' : State n m} {i : Fin n} {j : Fin m}

/-- Written and pending records make what the child owes. -/
structure LogInv (s : State n m) : Prop where
  unborn : ∀ i, (s.child i).pc = .notForked → (s.child i).rounds = 0
  account : ∀ i, s.log.records.count i + (s.child i).pending = (s.child i).owed

theorem logInv_start : LogInv (start : State n m) where
  unborn _ _ := rfl
  account i := by
    have hzero : ((start : State n m).child i).pending = 0 :=
      Child.ok_unborn.pending_eq_zero rfl
    rw [hzero]
    rfl

/-- A step of a child that appends nothing. -/
theorem LogInv.of_child (hs : LogInv s) {c : Child m} (hchild : s'.child = update s.child i c)
    (hlog : s'.log = s.log) (hborn : c.pc ≠ .notForked)
    (howed : c.pending + (s.child i).owed = (s.child i).pending + c.owed) : LogInv s' := by
  refine ⟨?_, ?_⟩ <;> rw [hchild]
  · exact (Function.forall_update_iff s.child fun _ c => c.pc = .notForked → c.rounds = 0).mpr
      ⟨fun h => absurd h hborn, fun k _ => hs.unborn k⟩
  · rw [hlog]
    refine (Function.forall_update_iff s.child fun k c =>
      s.log.records.count k + c.pending = c.owed).mpr ⟨?_, fun k _ => hs.account k⟩
    have haccount := hs.account i
    omega

theorem LogInv.main_process (hs : LogInv s) (hinv : Inv s) (h : main_process v s = some s') :
    LogInv s' := by
  have hlog := (main_process_frame h).1
  rcases main_process_child h with ⟨k, hmain, -, hk, hchild⟩ | ⟨hchild, -⟩
  · have hborn := (hinv.forked ⟨k, hk⟩).mpr (by rw [hmain]; exact le_rfl)
    refine hs.of_child hchild hlog (by simp [Child.start]) ?_
    rw [(hinv.ok ⟨k, hk⟩).pending_eq_zero (by rw [hborn]; rfl), Child.owed,
      hs.unborn _ hborn, hborn, (Child.ok_start (m := m)).pending_eq_zero rfl]
    rfl
  · refine ⟨?_, ?_⟩ <;> rw [hchild]
    · exact hs.unborn
    · rw [hlog]
      exact hs.account

theorem LogInv.wait (hs : LogInv s) (h : wait s i = some s') : LogInv s' := by
  obtain ⟨k, status, -, -, hpc, rfl⟩ := wait_eq_some.mp h
  refine hs.of_child rfl rfl (by simp) ?_
  rw [Child.owed, Child.owed, hpc]
  rfl

theorem LogInv.child (hs : LogInv s) (hinv : Inv s) (h : child v s i = some s') : LogInv s' := by
  obtain ⟨ready, start, c, hc, rfl⟩ := child_eq_some.mp h
  exact hs.of_child rfl rfl (child_process_forked hc).2 (child_process_owed hc (hinv.ok i))

/-- A thread turns a pending record into a written one. -/
theorem LogInv.thread (hs : LogInv s) (hinv : Inv s) (h : thread s i j = some s') : LogInv s' := by
  obtain ⟨sem, log, pc, hf, rfl⟩ := thread_eq_some.mp h
  have hne := (thread_function_spec hf).2.2.1
  constructor
  · refine (Function.forall_update_iff s.child fun _ c => c.pc = .notForked → c.rounds = 0).mpr
      ⟨?_, fun k _ => hs.unborn k⟩
    intro h
    exact absurd h ((hinv.ok i).running hne).1
  · -- what this child still owes and what it has written: only thread `j` of it moved
    refine (Function.forall_update_iff s.child fun k c =>
      log.records.count k + c.pending = c.owed).mpr ⟨?_, ?_⟩
    · have haccount := hs.account i
      have hcount := thread_function_count hf i
      have htally := tally_update ThreadPc.pending (s.child i).thread j pc
      rw [if_pos rfl, if_pos rfl] at hcount
      simp only [Child.pending, Child.owed] at haccount ⊢
      omega
    · -- the record appended is not one of child `k`
      intro k hk
      have haccount := hs.account k
      have hcount := thread_function_count hf k
      rw [if_neg (Ne.symm hk), if_neg (Ne.symm hk)] at hcount
      omega

theorem log_inv (h : (program v n m).Reachable s) : LogInv s := by
  refine h.invariant (I := LogInv) ?_ fun s t s' hr hs hstep => ?_
  · rintro s rfl
    exact logInv_start
  · have hinv := inv (reachable_faulty hr)
    rcases t with _ | i | i | ⟨i, j⟩
    · exact hs.main_process hinv hstep
    · exact hs.wait hstep
    · exact hs.child hinv hstep
    · exact hs.thread hinv hstep

/-- **The log when it is parsed**: all children are over, and child `i` has written
`m` records in each of its rounds. -/
theorem account_of_parseOutput (h : (program v n m).Reachable s) (hmain : s.main = .parseOutput)
    (i : Fin n) : (s.child i).pc.Finished ∧ 1 ≤ (s.child i).rounds ∧
      s.log.records.count i = m * (s.child i).rounds := by
  have hstart := start_inv h
  have hok := (inv (reachable_faulty h)).ok i
  have hreturned := hstart.all_returned (by rw [hmain]; rfl) i
  have halive := hstart.alive i
  have haccount := (log_inv h).account i
  cases hpc : (s.child i).pc <;> rw [hpc] at hreturned halive <;> cases hreturned
  case reaped status =>
    have hzero : status = 0 := by
      by_contra hne
      simp [hne] at halive
    rw [hok.pending_eq_zero (by rw [hpc]; rfl), Child.owed, hpc] at haccount
    exact ⟨trivial, hok.rounds (by rw [hpc]; exact hzero), haccount⟩

/-- At most one thread, over all children, is inside the critical section. -/
theorem sole_inside (h : (program v n m).Reachable s) {k : Fin n} {l : Fin m}
    (hij : ((s.child i).thread j).inside = 1) (hkl : ((s.child k).thread l).inside = 1) :
    k = i ∧ l = j := by
  have hinv := inv (reachable_faulty h)
  have hsem : s.criticalSection = 0 := by
    have hle := (s.child i).inside_le_held j
    have hle' := le_tally Child.held s.child i
    have := hinv.lock
    omega
  obtain ⟨i₀, j₀, -, hsole⟩ := hinv.sole_of_taken hsem (start_inv h).alive
  obtain ⟨rfl, rfl⟩ := hsole i j hij
  exact hsole k l hkl

/-- **The account of the log** in both programs: one thread at a time inside the
critical section; when the log is parsed all children are over, the file is read
back as a list of their numbers (as `int`s, from 0 up to `n`), and child `i` is in
it `m` times for each of its rounds, of which there is one at least. -/
theorem log_account (v : Version) (n m : ℕ) (s : State n m) (h : (program v n m).Reachable s) :
    (∀ i j k l, ((s.child i).thread j).inside = 1 → ((s.child k).thread l).inside = 1 →
      k = i ∧ l = j) ∧
    (s.main = .parseOutput → (∀ i, (s.child i).pc.Finished) ∧
      ∃ records : List (Fin n),
        s.log.bytes = records.flatMap (fun i => intBytes (Log.childId i)) ∧
        readInts s.log.bytes = records.map Log.childId ∧
        (n ≤ 2 ^ 31 → ∀ index ∈ readInts s.log.bytes, 0 ≤ index.toInt ∧ index.toInt < n) ∧
        ∀ i, 1 ≤ (s.child i).rounds ∧ records.count i = m * (s.child i).rounds) := by
  constructor
  · intro i j k l hij hkl
    exact sole_inside h hij hkl
  · intro hmain
    have hwhole := (inv (reachable_faulty h)).whole
    refine ⟨?_, s.log.records, hwhole, hwhole.readInts, ?_, ?_⟩
    · intro i
      exact (account_of_parseOutput h hmain i).1
    · intro hn index hindex
      exact hwhole.toInt_of_mem hn hindex
    · intro i
      exact (account_of_parseOutput h hmain i).2

/-- The log of two children with two threads each, of which one does two rounds. -/
theorem log_account_two : ∃ s, (program .lab07 2 2).Reachable s ∧
    (∀ i, (s.child i).pc.Finished) ∧
      ∃ records : List (Fin 2),
        s.log.bytes = records.flatMap (fun i => intBytes (Log.childId i)) ∧
        readInts s.log.bytes = records.map Log.childId ∧
        (∀ index ∈ readInts s.log.bytes, 0 ≤ index.toInt ∧ index.toInt < (2 : ℕ)) ∧
        records.count 0 = 2 * 2 ∧ records.count 1 = 2 * 1 := by
  obtain ⟨s, hrun, hmain, htwo, hone⟩ : ∃ s,
      (program .lab07 2 2).run start (startSchedule ++ [.child 0] ++ roundSchedule 0
        ++ [.child 0] ++ roundSchedule 0 ++ [.main, .child 0, .child 0, .child 1]
        ++ roundSchedule 1 ++ [.child 1, .child 1, .reap 1, .reap 0, .main]) = some s ∧
      s.main = .parseOutput ∧ (s.child 0).rounds = 2 ∧ (s.child 1).rounds = 1 :=
    ⟨_, rfl, rfl, rfl, rfl⟩
  have hreach := (Machine.Reachable.init (M := program .lab07 2 2) rfl).run hrun
  obtain ⟨hover, records, hbytes, hread, hids, hcount⟩ :=
    (log_account .lab07 2 2 s hreach).2 hmain
  refine ⟨s, hreach, hover, records, hbytes, hread, hids (by decide), ?_, ?_⟩
  · rw [(hcount 0).2, htwo]
  · rw [(hcount 1).2, hone]

/-! ### After the notification -/

/-- The threads that a child has yet to create once `*data` is set: those of the
round it is in, or of its first round when that has not begun. -/
@[simp] def ChildPc.toCreate (m : ℕ) : ChildPc → ℕ
  | .notForked | .postReady | .waitStart | .shmOpen | .mmap => m
  | .create j => m - j
  | _ => 0

/-- The records a child has yet to append once `*data` is set. -/
def Child.budget (c : Child m) : ℕ := c.pending + c.pc.toCreate m

theorem Child.Ok.budget_le {c : Child m} (hc : c.Ok) : c.budget ≤ m := by
  have hpending := hc.pending_le
  have hcreated := hc.created_le
  rw [Child.budget]
  cases hpc : c.pc <;> simp only [hpc, ChildPc.created, ChildPc.toCreate]
    at hpending hcreated ⊢ <;> omega

/-- A child that finds `*data` set does not begin another round. -/
theorem child_process_budget {ready start ready' start' : ℕ} {data : ℤ} {c c' : Child m}
    (h : child_process v ready start data c = some (ready', start', c')) (hc : c.Ok)
    (hstop : v.stops data = true) : c'.budget ≤ c.budget := by
  cases child_step h with
  | create j hj hpc =>
    have hfilled : Filled 0 j c.thread := by
      have hfilled := hc.filled
      rwa [hpc] at hfilled
    have htally : tally ThreadPc.pending (update c.thread ⟨j, hj⟩ .waitSem) = c.pending + 1 :=
      hfilled.tally_create hj rfl
    show tally ThreadPc.pending (update c.thread ⟨j, hj⟩ .waitSem) + (m - (j + 1)) ≤ c.budget
    rw [htally, Child.budget, hpc, ChildPc.toCreate]
    omega
  | join j hj hpc hdone =>
    have htally : tally ThreadPc.pending (update c.thread ⟨j, hj⟩ .absent) = c.pending :=
      tally_join hdone rfl
    show tally ThreadPc.pending (update c.thread ⟨j, hj⟩ .absent) ≤ c.budget
    rw [htally]
    exact Nat.le_add_right _ _
  | again hpc hnot =>
    rw [hstop] at hnot
    cases hnot
  | waitStart hpc _ => cases v <;> simp [Child.budget, Child.pending, Version.afterStart, hpc]
  | postReady hpc | shmOpen hpc | mmap hpc | created j hpc _ | joined j hpc _ | stop hpc _
  | cleanUp hpc =>
    simp [Child.budget, Child.pending, hpc]

/-- What a step appends to the log, against the budget of every child. -/
def Within (s s' : State n m) (appended : List (Fin n)) : Prop :=
  s'.log.records = s.log.records ++ appended ∧
    ∀ i, appended.count i + (s'.child i).budget ≤ (s.child i).budget

theorem Within.refl (s : State n m) : Within s s [] :=
  ⟨(List.append_nil _).symm, fun i => by rw [List.count_nil, Nat.zero_add]⟩

theorem Within.trans {u : State n m} {xs ys : List (Fin n)} (h₁ : Within s u xs)
    (h₂ : Within u s' ys) : Within s s' (xs ++ ys) := by
  constructor
  · rw [h₂.1, h₁.1, List.append_assoc]
  · intro i
    have hxs := h₁.2 i
    have hys := h₂.2 i
    rw [List.count_append]
    omega

/-- A step of one child that appends nothing. -/
theorem Within.of_child {c : Child m} (hchild : s'.child = update s.child i c)
    (hlog : s'.log = s.log) (hbudget : c.budget ≤ (s.child i).budget) : Within s s' [] := by
  refine ⟨by rw [hlog, List.append_nil], ?_⟩
  simp only [hchild, List.count_nil, Nat.zero_add]
  exact (Function.forall_update_iff s.child fun k c => c.budget ≤ (s.child k).budget).mpr
    ⟨hbudget, fun k _ => le_rfl⟩

/-- `main_process` leaves `*data` as it is, or sets it. -/
theorem main_process_stops (h : main_process v s = some s') (hstop : v.stops s.data = true) :
    v.stops s'.data = true := by
  cases main_step h with
  | setData hmain => cases v <;> rfl
  | fork i hi hmain | forked i hmain _ | waitReady i hmain _ _ | ready i hmain _
  | postStart i hmain _ | started i hmain _ | sleepLab05 hmain _ | sleepLab07 hmain _
  | shmOpen hmain | mmap hmain | reaped i hmain _ | parseOutput hmain | cleanUp hmain =>
    exact hstop

theorem main_process_within (hinv : Inv s) (h : main_process v s = some s') :
    Within s s' [] := by
  have hlog := (main_process_frame h).1
  rcases main_process_child h with ⟨k, hmain, -, hk, hchild⟩ | ⟨hchild, -⟩
  · have hborn := (hinv.forked ⟨k, hk⟩).mpr (by rw [hmain]; exact le_rfl)
    refine .of_child hchild hlog ?_
    have hzero : (Child.start : Child m).pending = 0 := Child.ok_start.pending_eq_zero rfl
    rw [Child.budget, Child.budget, hzero, hborn]
    exact Nat.add_le_add_right (Nat.zero_le _) _
  · constructor
    · rw [hlog, List.append_nil]
    · intro i
      rw [hchild, List.count_nil, Nat.zero_add]

/-- A thread spends the budget of its child by writing. -/
theorem thread_within (h : thread s i j = some s') : ∃ appended, Within s s' appended := by
  obtain ⟨sem, log, pc, hf, rfl⟩ := thread_eq_some.mp h
  have htally := tally_update ThreadPc.pending (s.child i).thread j pc
  obtain ⟨-, ⟨rfl, hp⟩ | ⟨rfl, hp⟩, -, -⟩ := thread_function_spec hf
  · refine ⟨[], .of_child rfl rfl ?_⟩
    simp only [Child.budget, Child.pending]
    omega
  · refine ⟨[i], rfl, (Function.forall_update_iff s.child fun k c =>
      [i].count k + c.budget ≤ (s.child k).budget).mpr ⟨?_, ?_⟩⟩
    · rw [List.count_singleton_self]
      simp only [Child.budget, Child.pending]
      omega
    · intro k hk
      rw [List.count_singleton, if_neg (by simpa using Ne.symm hk), Nat.zero_add]

/-- With `*data` set, a step keeps it set and stays within the budgets. -/
theorem step_within {t : Agent n m} (hr : (program v n m).Reachable s)
    (h : (program v n m).step s t = some s') (hstop : v.stops s.data = true) :
    v.stops s'.data = true ∧ ∃ appended, Within s s' appended := by
  have hinv := inv (reachable_faulty hr)
  rcases t with _ | i | i | ⟨i, j⟩
  case main => exact ⟨main_process_stops h hstop, [], main_process_within hinv h⟩
  case reap =>
    obtain ⟨k, status, -, -, hpc, rfl⟩ := wait_eq_some.mp h
    exact ⟨hstop, [], .of_child rfl rfl (by rw [Child.budget, Child.budget, hpc]; rfl)⟩
  case child =>
    obtain ⟨ready, start, c, hc, rfl⟩ := child_eq_some.mp h
    exact ⟨hstop, [], .of_child rfl rfl (child_process_budget hc (hinv.ok i) hstop)⟩
  case thread =>
    refine ⟨?_, thread_within h⟩
    obtain ⟨sem, log, pc, -, rfl⟩ := thread_eq_some.mp h
    exact hstop

/-- With `*data` set, a run stays within the budgets it begins with. -/
theorem run_within {ts : List (Agent n m)} (hr : (program v n m).Reachable s)
    (h : (program v n m).run s ts = some s') (hstop : v.stops s.data = true) :
    ∃ appended, Within s s' appended := by
  refine (Machine.run_invariant (I := fun u => (program v n m).Reachable u ∧
    v.stops u.data = true ∧ ∃ appended, Within s u appended) (fun u t u' hu hstep => ?_) h
    ⟨hr, hstop, [], .refl s⟩).2.2
  obtain ⟨hru, hstopu, xs, hxs⟩ := hu
  obtain ⟨hstop', ys, hys⟩ := step_within hru hstep hstopu
  exact ⟨hru.step t hstep, hstop', xs ++ ys, hxs.trans hys⟩

/-- **Bounded work after the notification** in both programs: whatever happens from
the step that sets `*data` onwards, the file grows by whole records, at most `m` of
each child. -/
theorem bounded_after_stop (v : Version) (n m : ℕ) (s s₁ s₂ : State n m)
    (ts : List (Agent n m)) (h : (program v n m).Reachable s) (hmain : s.main = .setData)
    (hset : (program v n m).step s .main = some s₁)
    (hrun : (program v n m).run s₁ ts = some s₂) :
    ∃ appended : List (Fin n),
      s₂.log.bytes = s₁.log.bytes ++ appended.flatMap (fun i => intBytes (Log.childId i)) ∧
      ∀ i, appended.count i ≤ m := by
  have hr := h.step .main hset
  have hstop : v.stops s₁.data = true := by
    simp only [program, step, main_process, hmain] at hset
    cases hset
    cases v <;> rfl
  obtain ⟨appended, hrecords, hbudget⟩ := run_within hr hrun hstop
  have hwhole₁ : s₁.log.bytes = _ := (inv (reachable_faulty hr)).whole
  have hwhole₂ : s₂.log.bytes = _ := (inv (reachable_faulty (hr.run hrun))).whole
  refine ⟨appended, ?_, ?_⟩
  · rw [hwhole₂, hwhole₁, hrecords, List.flatMap_append]
  · intro i
    have hle := ((inv (reachable_faulty hr)).ok i).budget_le
    have := hbudget i
    omega

/-- The bound in a run in which both children pass the start after the notification. -/
theorem bounded_after_stop_two : ∃ s s₁ s₂, (program .lab07 2 2).Reachable s ∧
    s.main = .setData ∧ (program .lab07 2 2).step s .main = some s₁ ∧
    (program .lab07 2 2).run s₁ ([.child 0, .child 1] ++ roundSchedule 0 ++ roundSchedule 1)
      = some s₂ ∧
    s₁.log.bytes.length = 0 ∧ s₂.log.bytes.length = 4 * (2 + 2) ∧
    ∃ appended : List (Fin 2),
      s₂.log.bytes = s₁.log.bytes ++ appended.flatMap (fun i => intBytes (Log.childId i)) ∧
      ∀ i, appended.count i ≤ 2 := by
  obtain ⟨s, s₁, s₂, hstart, hmain, hset, hrun, hempty, hfull⟩ : ∃ s s₁ s₂,
      (program .lab07 2 2).run start startSchedule = some s ∧ s.main = .setData ∧
      (program .lab07 2 2).step s .main = some s₁ ∧
      (program .lab07 2 2).run s₁ ([.child 0, .child 1] ++ roundSchedule 0 ++ roundSchedule 1)
        = some s₂ ∧
      s₁.log.bytes.length = 0 ∧ s₂.log.bytes.length = 4 * (2 + 2) :=
    ⟨_, _, _, rfl, rfl, rfl, rfl, rfl, rfl⟩
  have hreach := (Machine.Reachable.init (M := program .lab07 2 2) rfl).run hstart
  exact ⟨s, s₁, s₂, hreach, hmain, hset, hrun, hempty, hfull,
    bounded_after_stop .lab07 2 2 s s₁ s₂ _ hreach hmain hset hrun⟩

end Riepilogo
