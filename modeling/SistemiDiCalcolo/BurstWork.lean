/-
The work of a client of Lab02.

A client is assigned `num_tasks` work items.  Its first loop takes them two at a time, as far as
they go and one further if they are odd; its second loop, for the item that is left over, begins
again with the first one.

* `loops` — the two loops, with what they do;
* `client_works` — the steps of a client of the scheduler are steps of them;
* `exists_done` — they work on `2 * ((num_tasks + 1) / 2) + num_tasks` items;
* `assigned_iff` — that is what has been assigned only if nothing has.
-/
import SistemiDiCalcolo.BurstScheduler

namespace BurstScheduler

/-- What the loops of a client do: `sem_wait`, a work item (a `sleep`), `sem_post`. -/
inductive Op
  | wait
  | work
  | post
  deriving DecidableEq, Repr

/-- A client in its loops, and what it has done. -/
structure Worker where
  pc : ClientPc
  ops : List Op
  deriving DecidableEq, Repr

/-- The next step of the loops.  Their counter is an `int`: when it overflows, C gives no
meaning to it. -/
def workStep (num_tasks : ℕ) (s : Worker) : Option Worker :=
  match s.pc with
  | .first i =>
    -- the second loop does not go on from `i`
    if i < num_tasks then some ⟨.firstWorking i, s.ops ++ [.wait]⟩ else some ⟨.second 0, s.ops⟩
  | .firstWorking i =>
    if i + 2 < 2 ^ 31 then some ⟨.first (i + 2), s.ops ++ [.work, .work, .post]⟩ else none
  | .second i =>
    if i < num_tasks then some ⟨.secondWorking i, s.ops ++ [.wait]⟩ else some ⟨.waitExit, s.ops⟩
  | .secondWorking i =>
    if i + 1 < 2 ^ 31 then some ⟨.second (i + 1), s.ops ++ [.work, .post]⟩ else none
  | _ => none

/-- The loops. -/
def loops (num_tasks : ℕ) : Machine Worker Unit where
  init s := s = ⟨.first 0, []⟩
  step s _ := workStep num_tasks s

/-- Two items for each time the resource is acquired. -/
def pairs (r : ℕ) : List Op := (List.replicate r [Op.wait, .work, .work, .post]).flatten

/-- One item for each time. -/
def singles (k : ℕ) : List Op := (List.replicate k [Op.wait, .work, .post]).flatten

/-- The work that has been assigned: two items each time, and one if there is one left over. -/
def assigned (num_tasks : ℕ) : List Op := pairs (num_tasks / 2) ++ singles (num_tasks % 2)

/-! ### The clients of the scheduler -/

/-- The item under way is one of those assigned. -/
def ClientPc.Working (num_tasks : ℕ) : ClientPc → Prop
  | .firstWorking i | .secondWorking i => i < num_tasks
  | _ => True

theorem client_working {g g' : Shared} {pc pc' : ClientPc} (h : client g pc = some (g', pc')) :
    pc'.Working NUM_TASKS := by
  cases pc with
  | absent | done => cases h
  | first i | second i =>
    rw [client] at h
    split_ifs at h with hi
    · obtain ⟨sem, -, heq⟩ := Option.map_eq_some_iff.mp h
      cases heq
      exact hi
    · cases h
      trivial
  | firstWorking i | secondWorking i | waitExit | postExit =>
    obtain ⟨sem, -, heq⟩ := Option.map_eq_some_iff.mp h
    cases heq
    trivial
  | loadActive | storeActive x =>
    cases h
    trivial

/-- A client that has not finished takes a step of the loops. -/
theorem client_works {g g' : Shared} {pc pc' : ClientPc} (hpc : pc.Working NUM_TASKS)
    (h : client g pc = some (g', pc')) (ops : List Op) :
    pc.Finished ∨ ∃ new, workStep NUM_TASKS ⟨pc, ops⟩ = some ⟨pc', ops ++ new⟩ := by
  cases pc with
  | absent => cases h
  | first i | second i =>
    right
    rw [client] at h
    split_ifs at h with hi
    · obtain ⟨sem, -, heq⟩ := Option.map_eq_some_iff.mp h
      cases heq
      exact ⟨[.wait], if_pos hi⟩
    · cases h
      exact ⟨[], by rw [List.append_nil]; exact if_neg hi⟩
  | firstWorking i | secondWorking i =>
    right
    obtain ⟨sem, -, heq⟩ := Option.map_eq_some_iff.mp h
    cases heq
    have hi : i < 3 := hpc
    exact ⟨_, if_pos (by omega)⟩
  | waitExit | loadActive | storeActive x | postExit | done => exact .inl trivial

/-! ### What the loops do -/

section Loops

variable {n r k : ℕ} {s s' : Worker}

theorem pairs_succ : pairs (r + 1) = pairs r ++ [Op.wait] ++ [.work, .work, .post] := by
  rw [pairs, List.replicate_succ', List.flatten_concat, List.append_assoc]
  rfl

theorem singles_succ : singles (k + 1) = singles k ++ [Op.wait] ++ [.work, .post] := by
  rw [singles, List.replicate_succ', List.flatten_concat, List.append_assoc]
  rfl

theorem count_pairs : (pairs r).count .work = 2 * r := by
  induction r with
  | zero => rfl
  | succ r ih =>
    rw [pairs_succ, List.count_append, List.count_append, ih]
    rfl

theorem count_singles : (singles k).count .work = k := by
  induction k with
  | zero => rfl
  | succ k ih =>
    rw [singles_succ, List.count_append, List.count_append, ih]
    rfl

/-- How far the loops have come. -/
inductive Progress (n : ℕ) : Worker → Prop
  | first (r : ℕ) : 2 * r < n + 2 → Progress n ⟨.first (2 * r), pairs r⟩
  | firstWorking (r : ℕ) : 2 * r < n → Progress n ⟨.firstWorking (2 * r), pairs r ++ [.wait]⟩
  | second (i : ℕ) : i ≤ n → Progress n ⟨.second i, pairs ((n + 1) / 2) ++ singles i⟩
  | secondWorking (i : ℕ) : i < n →
      Progress n ⟨.secondWorking i, pairs ((n + 1) / 2) ++ singles i ++ [.wait]⟩
  | ended : Progress n ⟨.waitExit, pairs ((n + 1) / 2) ++ singles n⟩

theorem Progress.step (hs : Progress n s) (h : workStep n s = some s') : Progress n s' := by
  cases hs with
  | first r hr =>
    simp only [workStep] at h
    split_ifs at h with hlt
    · cases h
      exact .firstWorking r hlt
    · -- the first loop has gone past `n`, by one if `n` is odd
      cases h
      obtain rfl : r = (n + 1) / 2 := by omega
      have hsecond := Progress.second 0 (Nat.zero_le n)
      rwa [singles, List.replicate_zero, List.flatten_nil, List.append_nil] at hsecond
  | firstWorking r hr =>
    simp only [workStep] at h
    split_ifs at h
    cases h
    rw [← pairs_succ]
    exact .first (r + 1) (by omega)
  | second i hi =>
    simp only [workStep] at h
    split_ifs at h with hlt
    · cases h
      exact .secondWorking i hlt
    · cases h
      obtain rfl : i = n := by omega
      exact .ended
  | secondWorking i hi =>
    simp only [workStep] at h
    split_ifs at h
    cases h
    rw [List.append_assoc, List.append_assoc, ← List.append_assoc (singles i), ← singles_succ]
    exact .second (i + 1) hi
  | ended => cases h

theorem progress_of_reachable (h : (loops n).Reachable s) : Progress n s := by
  refine h.invariant ?_ fun s t s' _ hs hstep => hs.step hstep
  rintro s rfl
  exact .first 0 (by omega)

/-- At the end of the loops. -/
theorem ops_of_ended (h : (loops n).Reachable s) (hpc : s.pc = .waitExit) :
    s.ops = pairs ((n + 1) / 2) ++ singles n := by
  cases progress_of_reachable h with
  | first r _ | firstWorking r _ | second i _ | secondWorking i _ => cases hpc
  | ended => rfl

/-- A time the resource is acquired in the first loop. -/
theorem run_pair (hr : 2 * r < n) (hn : n + 1 < 2 ^ 31) :
    (loops n).run ⟨.first (2 * r), pairs r⟩ [(), ()]
      = some ⟨.first (2 * (r + 1)), pairs (r + 1)⟩ := by
  have hwait : (loops n).step ⟨.first (2 * r), pairs r⟩ ()
      = some ⟨.firstWorking (2 * r), pairs r ++ [.wait]⟩ := if_pos hr
  have hpost : (loops n).step ⟨.firstWorking (2 * r), pairs r ++ [.wait]⟩ ()
      = some ⟨.first (2 * (r + 1)), pairs (r + 1)⟩ := by
    rw [pairs_succ]
    exact if_pos (by omega)
  exact (Machine.run_cons hwait).trans (Machine.run_cons hpost)

/-- A time the resource is acquired in the second loop. -/
theorem run_single {done : List Op} (hk : k < n) (hn : n + 1 < 2 ^ 31) :
    (loops n).run ⟨.second k, done ++ singles k⟩ [(), ()]
      = some ⟨.second (k + 1), done ++ singles (k + 1)⟩ := by
  have hwait : (loops n).step ⟨.second k, done ++ singles k⟩ ()
      = some ⟨.secondWorking k, done ++ singles k ++ [.wait]⟩ := if_pos hk
  have hpost : (loops n).step ⟨.secondWorking k, done ++ singles k ++ [.wait]⟩ ()
      = some ⟨.second (k + 1), done ++ singles (k + 1)⟩ := by
    rw [singles_succ, ← List.append_assoc, ← List.append_assoc]
    exact if_pos (by omega)
  exact (Machine.run_cons hwait).trans (Machine.run_cons hpost)

/-- **The work that is done**: the second loop does not go on where the first one ends. -/
theorem exists_done (hn : n + 1 < 2 ^ 31) :
    (loops n).Reachable ⟨.waitExit, pairs ((n + 1) / 2) ++ singles n⟩ := by
  have hfirst : (loops n).Reachable ⟨.first (2 * ((n + 1) / 2)), pairs ((n + 1) / 2)⟩ :=
    Machine.Reachable.iterate (f := fun r => (⟨.first (2 * r), pairs r⟩ : Worker)) (.init rfl)
      fun r hr => ⟨_, run_pair (by omega) hn⟩
  have hbegin : (loops n).step ⟨.first (2 * ((n + 1) / 2)), pairs ((n + 1) / 2)⟩ ()
      = some ⟨.second 0, pairs ((n + 1) / 2) ++ singles 0⟩ := by
    rw [singles, List.replicate_zero, List.flatten_nil, List.append_nil]
    exact if_neg (by omega)
  have hsecond : (loops n).Reachable ⟨.second n, pairs ((n + 1) / 2) ++ singles n⟩ :=
    Machine.Reachable.iterate
      (f := fun k => (⟨.second k, pairs ((n + 1) / 2) ++ singles k⟩ : Worker))
      (hfirst.step () hbegin) fun k hk => ⟨_, run_single hk hn⟩
  exact hsecond.step () (if_neg (lt_irrefl n))

/-- **The assigned work**: the loops do exactly the work that has been assigned only if there is
none. -/
theorem assigned_iff (num_tasks : ℕ) : (∃ s, (loops num_tasks).Reachable s ∧ s.pc = .waitExit ∧
    s.ops = assigned num_tasks) ↔ num_tasks = 0 := by
  constructor
  · rintro ⟨s, hs, hpc, hops⟩
    have hcount := congrArg (List.count Op.work) ((ops_of_ended hs hpc).symm.trans hops)
    rw [assigned, List.count_append, List.count_append, count_pairs, count_pairs, count_singles,
      count_singles] at hcount
    omega
  · rintro rfl
    exact ⟨_, exists_done (by decide), rfl, rfl⟩

/-- The three tasks of a client of the scheduler are seven. -/
theorem seven_items : ∃ s, (loops NUM_TASKS).Reachable s ∧ s.pc = .waitExit ∧
    s.ops.count .work = 7 ∧ s.ops ≠ assigned NUM_TASKS :=
  ⟨_, exists_done (by decide), rfl, by decide, by decide⟩

end Loops

end BurstScheduler
