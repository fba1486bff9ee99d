/-
The log of the riepilogo program of Lab04.

The lock of the log is a copy in each process, so it keeps apart the threads of
one child only.  `parseOutput` counts the records in an array of `n` elements,
`n` from the command line, while `main` forks `N` children whatever `n` is.

* `mutual_exclusion_iff` — one thread at a time over all children, exactly when
  there is one child at most, or no thread;
* `indexes_valid_iff` — every index that `parseOutput` reads is one of the array
  exactly when `N ≤ n`, or there is no thread.
-/
import SistemiDiCalcolo.PollingRuns

open Function (update)
open AccessLog

namespace Polling

variable {N M : ℕ} {check : ℤ} {checks : Fin N → ℤ} {s s' : State N M} {i : Fin N}

/-! ### The lock -/

/-- At most one thread over all children is between `sem_wait` and `sem_post`. -/
def OneInside (s : State N M) : Prop :=
  ∀ i j k l, ((s.child i).thread j).inside = 1 → ((s.child k).thread l).inside = 1 →
    i = k ∧ j = l

/-- Two children, each with a thread inside its critical section. -/
theorem exists_two_inside (check : ℤ) (checks : Fin N → ℤ) {k : Fin N} (hM : 0 < M)
    (hne : i ≠ k) (hi : checks i ≠ N) (hk : checks k ≠ N) :
    ∃ s : State N M, (program check checks).Reachable s ∧
      ((s.child i).thread ⟨0, hM⟩).inside = 1 ∧ ((s.child k).thread ⟨0, hM⟩).inside = 1 := by
  have hstarted : (program check checks).Reachable (startedState checks : State N M) :=
    reachable_started
  have hlt : 1 < N := by
    have := i.isLt
    have := k.isLt
    have : i.val ≠ k.val := fun heq => hne (Fin.ext heq)
    omega
  have hfirst := reachable_inside (i := i) hstarted hM rfl rfl (Nat.zero_lt_of_lt hlt) rfl hi
    Nat.one_pos
  have hsecond := reachable_inside (i := k) hfirst hM
    (by simp [Function.update_of_ne hne.symm, startedState, Child.ready]) rfl
    (Nat.sub_pos_of_lt hlt) rfl
    (by simpa [Function.update_of_ne hne.symm, startedState, Child.ready, Child.fresh,
      Child.forked, Child.unborn] using hk)
    (by simp [Function.update_of_ne hne.symm, startedState, Child.ready, Child.fresh,
      Child.forked])
  refine ⟨_, hsecond, ?_, ?_⟩
  · simp [Function.update_of_ne hne, Child.entered, ThreadPc.inside]
  · simp [Child.entered, ThreadPc.inside]

/-- **Mutual exclusion on the log**, over all contents of the variables `check`, holds
exactly when there is one child at most, or no thread. -/
theorem mutual_exclusion_iff (N M : ℕ) :
    (∀ (check : ℤ) (checks : Fin N → ℤ) (s : State N M), (program check checks).Reachable s →
      OneInside s) ↔ N ≤ 1 ∨ M = 0 := by
  constructor
  · intro h
    by_contra hnot
    have hN : 1 < N := by omega
    have hM : 0 < M := by omega
    have hne : (⟨0, Nat.zero_lt_of_lt hN⟩ : Fin N) ≠ ⟨1, hN⟩ := by simp
    have hzero : (0 : ℤ) ≠ N := by omega
    obtain ⟨s, hs, hi, hk⟩ :=
      exists_two_inside 0 (fun _ : Fin N => 0) hM hne hzero hzero
    exact hne (h 0 _ s hs _ _ _ _ hi hk).1
  · rintro (hN | rfl) check checks s hs i j k l hij hkl
    · have hik : i = k := Fin.ext (by omega)
      subst hik
      exact ⟨rfl, sole_inside_child hs hij hkl⟩
    · exact j.elim0

/-- The ten children and ten threads of the program: two threads inside together. -/
theorem two_inside_ten : ¬ ∀ (check : ℤ) (checks : Fin 10 → ℤ) (s : State 10 10),
    (program check checks).Reachable s → OneInside s := by
  intro h
  have hne : (0 : Fin 10) ≠ 1 := by decide
  have hzero : (0 : ℤ) ≠ (10 : ℕ) := by decide
  obtain ⟨s, hs, hi, hk⟩ :=
    exists_two_inside 0 (fun _ : Fin 10 => 0) (Nat.succ_pos 9) hne hzero hzero
  exact hne (h 0 _ s hs _ _ _ _ hi hk).1

/-! ### The array of `parseOutput` -/

/-- Everything read is a record, and a record needs a thread. -/
structure ReadInv (s : State N M) : Prop where
  written : s.log.records ≠ [] → 0 < M
  reads : ∀ index ∈ s.reads, 0 < M ∧ ∃ i : Fin N, index = Log.childId i

/-- `parseOutput` reads a record of the log; nothing else touches `reads`. -/
theorem mainProcess_reads (h : mainProcess s = some s') :
    s'.reads = s.reads ∨ ∃ index ∈ readInts s.log.bytes, s'.reads = s.reads ++ [index] := by
  cases main_step h with
  | parse k index hmain hindex => exact .inr ⟨index, List.mem_of_getElem? hindex, rfl⟩
  | fork k hk hmain | forked k hmain _ | openReady hmain _ | noReady hmain _ | poll hmain _
  | polled hmain _ | getReady hmain | openStart hmain _ | noStart hmain _ | postStart k hmain _
  | started k hmain _ | sleep hmain | openHalt hmain _ | noHalt hmain _ | postHalt k hmain _
  | halted k hmain _ | unlinkReady hmain | unlinkStart hmain | unlinkHalt hmain
  | parsed k hmain _ =>
    exact .inl rfl

theorem ReadInv.mainProcess (hs : ReadInv s) (hinv : Inv checks s) (h : mainProcess s = some s') :
    ReadInv s' := by
  have hlog := (mainProcess_frame h).1
  refine ⟨by rw [hlog]; exact hs.written, ?_⟩
  rcases mainProcess_reads h with hreads | ⟨index, hindex, hreads⟩
  · rw [hreads]
    exact hs.reads
  · intro index' hmem
    rw [hreads, List.mem_append, List.mem_singleton] at hmem
    rcases hmem with hmem | rfl
    · exact hs.reads index' hmem
    · rw [hinv.whole.readInts, List.mem_map] at hindex
      obtain ⟨i, hi, hid⟩ := hindex
      exact ⟨hs.written (List.ne_nil_of_mem hi), i, hid.symm⟩

theorem read_inv (h : (program check checks).Reachable s) : ReadInv s := by
  refine h.invariant (I := ReadInv) ?_ fun s t s' hr hs hstep => ?_
  · rintro s rfl
    exact ⟨fun h => absurd rfl h, fun index h => absurd h List.not_mem_nil⟩
  · cases t with
    | main => exact hs.mainProcess (inv hr) hstep
    | child i =>
      obtain ⟨ready, start, c, -, rfl⟩ := child_eq_some.mp hstep
      exact ⟨hs.written, hs.reads⟩
    | thread i j =>
      obtain ⟨sem, log, pc, -, rfl⟩ := thread_eq_some.mp hstep
      exact ⟨fun _ => Nat.zero_lt_of_lt j.isLt, hs.reads⟩

/-- `parseOutput` on a log of one record. -/
theorem run_parseOutput {index : CInt} (hmain : s.main = .parse 0)
    (hlog : readInts s.log.bytes = [index]) :
    (program check checks).run s [.main, .main] =
      some { s with reads := s.reads ++ [index], main := .done } := by
  simp [Machine.run, program, step, Polling.mainProcess, hmain, hlog]

/-- A run in which the main process reads the number of child `i`. -/
theorem exists_read (check : ℤ) (checks : Fin N → ℤ) (hM : 0 < M) (hi : checks i ≠ N) :
    ∃ s : State N M, (program check checks).Reachable s ∧ s.main = .done ∧
      s.reads = [Log.childId i] := by
  have hstarted : (program check checks).Reachable (startedState checks : State N M) :=
    reachable_started
  have hinside := reachable_inside (i := i) hstarted hM rfl rfl (Nat.zero_lt_of_lt i.isLt) rfl hi
    Nat.one_pos
  have hwritten := hinside.run (run_written (i := i) (j := ⟨0, hM⟩) (by simp [Child.entered]))
  have hparse := reachable_parse hwritten rfl rfl
  have hread : readInts ((Log.empty : Log N).write i).bytes = [Log.childId i] :=
    (Log.whole_empty.write i).readInts
  exact ⟨_, hparse.run (run_parseOutput rfl hread), rfl, rfl⟩

/-- **The indexes that `parseOutput` reads**, over all contents of the variables
`check`: with `n` elements in its array, every index it has read when it returns is
one of the array exactly when `N ≤ n`, or there is no thread. -/
theorem indexes_valid_iff (N M n : ℕ) (hN : N ≤ 2 ^ 31) :
    (∀ (check : ℤ) (checks : Fin N → ℤ) (s : State N M), (program check checks).Reachable s →
      s.main = .done → ∀ index ∈ s.reads, 0 ≤ index.toInt ∧ index.toInt < n) ↔
        N ≤ n ∨ M = 0 := by
  constructor
  · intro h
    by_contra hnot
    have hlt : n < N := by omega
    have hM : 0 < M := by omega
    have hzero : (0 : ℤ) ≠ N := by omega
    -- the last child writes a number that is not below `n`
    obtain ⟨s, hs, hmain, hreads⟩ :=
      exists_read (i := ⟨N - 1, by omega⟩) 0 (fun _ : Fin N => 0) hM hzero
    have hvalid := (h 0 _ s hs hmain _ (by rw [hreads]; exact List.mem_singleton_self _)).2
    rw [Log.childId_toInt hN] at hvalid
    simp only at hvalid
    omega
  · intro hor check checks s hs _ index hindex
    obtain ⟨hM, i, rfl⟩ := (read_inv hs).reads index hindex
    have := i.isLt
    rw [Log.childId_toInt hN]
    omega

/-- The ten children and ten threads of the program, for five on the command line. -/
theorem indexes_valid_iff_five :
    (∀ (check : ℤ) (checks : Fin 10 → ℤ) (s : State 10 10), (program check checks).Reachable s →
      s.main = .done → ∀ index ∈ s.reads, 0 ≤ index.toInt ∧ index.toInt < (5 : ℕ)) ↔
        10 ≤ 5 ∨ 10 = 0 :=
  indexes_valid_iff 10 10 5 (by decide)

/-- With five on the command line an index of the run is out of the array. -/
theorem index_out_of_array_five : ¬ ∀ (check : ℤ) (checks : Fin 10 → ℤ) (s : State 10 10),
    (program check checks).Reachable s → s.main = .done →
      ∀ index ∈ s.reads, 0 ≤ index.toInt ∧ index.toInt < (5 : ℕ) := by
  intro h
  have hzero : (0 : ℤ) ≠ (10 : ℕ) := by decide
  obtain ⟨s, hs, hmain, hreads⟩ :=
    exists_read (i := Fin.last 9) 0 (fun _ : Fin 10 => 0) (Nat.succ_pos 9) hzero
  have hvalid := (h 0 _ s hs hmain _ (by rw [hreads]; exact List.mem_singleton_self _)).2
  rw [Log.childId_toInt (by decide)] at hvalid
  exact absurd hvalid (by decide)

end Polling
