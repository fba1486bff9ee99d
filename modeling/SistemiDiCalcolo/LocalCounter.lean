/-
The counter of Lab01 that `main` sums up (`concurrent_threads.c`).

Every thread adds `v` to an `int` of its own `m` times and stores it where its argument
points; `main` keeps the pointers in `BUF` and adds up what they point to once it has
joined all threads.  `BUF` has room for `N` pointers, whatever `n` is.

* `program` — the program, for the three values of the command line;
* `Inv` — what the threads have in their accumulators, and what `main` has summed up;
* `agrees_iff` — when the sum is that of the counter of Lab02, with all accesses to `BUF`
  inside of it.
-/
import SistemiDiCalcolo.SharedCounter
import SistemiDiCalcolo.Memory
import Mathlib.Tactic.Ring
import Mathlib.Tactic.NormNum

open Function (update)

namespace LocalCounter

open SharedCounter (Verdict verdict expectedValue)

/-- The pointers that `BUF` has room for. -/
def N : ℕ := 1000

/-- Program points of `main`. -/
inductive MainPc
  | creating (i : ℕ)
  | joining (i : ℕ)
  | summing (j : ℕ)
  | comparing
  | finished (verdict : Verdict)
  deriving DecidableEq, Repr

/-- Program points of `thread_work`, with its argument and its variables `i` and `local`. -/
inductive ThreadPc
  | absent
  | loop (total_arg i : ℕ) (acc : CInt)
  | done
  deriving DecidableEq, Repr

/-- The array of pointers, the `int`s they point to and the number of those allocated;
beside them the indexes of `BUF` that `main` has accessed. -/
structure State (n : ℕ) where
  buf : Memory ℕ
  heap : Memory CInt
  allocated : ℕ
  sharedVariable : ULong
  main : MainPc
  thread : Fin n → ThreadPc
  accesses : List ℕ

open SharedCounter (Agent)

section Program

variable {n : ℕ}

/-- The next step of `main`. -/
def main (m : ℕ) (v : CInt) (s : State n) : Option (State n) :=
  match s.main with
  | .creating i =>
    if h : i < n then
      -- `BUF[i] = calloc(1, sizeof(int))`, and `BUF[i]` is the argument of the thread
      some { s with
        buf := update s.buf i s.allocated
        heap := update s.heap s.allocated 0
        allocated := s.allocated + 1
        thread := update s.thread ⟨i, h⟩ (.loop s.allocated 0 0)
        main := .creating (i + 1)
        accesses := s.accesses ++ [i] }
    else some { s with main := .joining 0 }
  | .joining i =>
    if h : i < n then
      if s.thread ⟨i, h⟩ = .done then some { s with main := .joining (i + 1) } else none
    else some { s with main := .summing 0 }
  | .summing j =>
    if j < n then
      some { s with
        sharedVariable := s.sharedVariable + toULong (s.heap (s.buf j))
        main := .summing (j + 1)
        accesses := s.accesses ++ [j] }
    else some { s with main := .comparing }
  | .comparing =>
    some { s with main := .finished (verdict v (expectedValue n m v) s.sharedVariable) }
  | .finished _ => none

/-- The next step of `thread_work`. -/
def thread_work (m : ℕ) (v : CInt) (heap : Memory CInt) (pc : ThreadPc) :
    Option (Memory CInt × ThreadPc) :=
  match pc with
  | .loop total_arg i acc =>
    if i < m then some (heap, .loop total_arg (i + 1) (acc + v))
    else some (update heap total_arg acc, .done)
  | .absent | .done => none

/-- The next step of an agent. -/
def step (m : ℕ) (v : CInt) (s : State n) : Agent n → Option (State n)
  | .main => main m v s
  | .thread k =>
    (thread_work m v s.heap (s.thread k)).map fun (heap, pc) =>
      { s with heap := heap, thread := update s.thread k pc }

/-- What `main` sets up before it creates the threads; `malloc` leaves `BUF` with
whatever it contains. -/
def start (buf : Memory ℕ) (heap : Memory CInt) : State n where
  buf := buf
  heap := heap
  allocated := 0
  sharedVariable := 0
  main := .creating 0
  thread _ := .absent
  accesses := []

/-- The program with the given command line. -/
def program (n m : ℕ) (v : CInt) : Machine (State n) (Agent n) where
  init s := ∃ buf heap, s = start buf heap
  step := step m v

end Program

/-! ### The accumulators and the sum -/

section Inv

variable {n m : ℕ} {v : CInt}

namespace MainPc

/-- The threads that `main` has created. -/
@[simp] def created (n : ℕ) : MainPc → ℕ
  | .creating i => i
  | _ => n

/-- The threads that `main` has joined. -/
@[simp] def joined (n : ℕ) : MainPc → ℕ
  | .creating _ => 0
  | .joining i => i
  | _ => n

/-- The accumulators that `main` has summed up. -/
@[simp] def summed (n : ℕ) : MainPc → ℕ
  | .creating _ | .joining _ => 0
  | .summing j => j
  | .comparing | .finished _ => n

/-- Everything has been summed up. -/
@[simp] def AllSummed : MainPc → Prop
  | .comparing | .finished _ => True
  | _ => False

end MainPc

/-- What `local` is in the end. -/
def total (m : ℕ) (v : CInt) : CInt := BitVec.ofNat 32 m * v

/-- The variables of the thread whose argument is `BUF[k]`. -/
@[simp] def ThreadPc.Ok (m : ℕ) (v : CInt) (k : ℕ) (cell : CInt) : ThreadPc → Prop
  | .absent => True
  | .loop total_arg i acc => total_arg = k ∧ i ≤ m ∧ acc = BitVec.ofNat 32 i * v
  | .done => cell = total m v

/-- The threads that exist, their variables, and what `main` has done with `BUF`. -/
structure Inv (m : ℕ) (v : CInt) (s : State n) : Prop where
  created_le : s.main.created n ≤ n
  summed_le : s.main.summed n ≤ n
  allocated : s.allocated = s.main.created n
  spawned : Spawned .absent (s.main.created n) s.thread
  joined : JoinedBelow .done (s.main.joined n) s.thread
  buf : ∀ i, i < s.main.created n → s.buf i = i
  thread : ∀ k, (s.thread k).Ok m v k (s.heap k)
  shared : s.sharedVariable = BitVec.ofNat 64 (s.main.summed n) * toULong (total m v)
  accesses : s.accesses = List.range (s.main.created n) ++ List.range (s.main.summed n)

theorem inv_start (buf : Memory ℕ) (heap : Memory CInt) : Inv m v (start buf heap : State n) where
  created_le := Nat.zero_le n
  summed_le := Nat.zero_le n
  allocated := rfl
  spawned := spawned_zero _
  joined := joinedBelow_zero _ _
  buf _ hi := absurd hi (Nat.not_lt_zero _)
  thread _ := trivial
  shared := by simp [start]
  accesses := rfl

/-- `main` creates a thread. -/
theorem Inv.create {s : State n} (hs : Inv m v s) {i : ℕ} (hpc : s.main = .creating i)
    (hi : i < n) :
    Inv m v { s with
      buf := update s.buf i s.allocated
      heap := update s.heap s.allocated 0
      allocated := s.allocated + 1
      thread := update s.thread ⟨i, hi⟩ (.loop s.allocated 0 0)
      main := .creating (i + 1)
      accesses := s.accesses ++ [i] } := by
  obtain ⟨-, -, halloc, hspawned, -, hbuf, hthread, hshared, haccesses⟩ := hs
  rw [hpc] at halloc hspawned hbuf hshared haccesses
  simp only [MainPc.created, MainPc.summed] at halloc hbuf haccesses
  refine ⟨hi, Nat.zero_le n, congrArg (· + 1) halloc, hspawned.create hi nofun,
    joinedBelow_zero _ _, ?_, ?_, hshared, ?_⟩
  · intro j hj
    show update s.buf i s.allocated j = j
    rcases Nat.lt_succ_iff_lt_or_eq.mp hj with hlt | rfl
    · rw [Function.update_of_ne hlt.ne]
      exact hbuf j hlt
    · rw [Function.update_self, halloc]
  · intro k
    show (update s.thread ⟨i, hi⟩ (.loop s.allocated 0 0) k).Ok m v k
      (update s.heap s.allocated 0 k)
    rw [halloc]
    by_cases hk : k = ⟨i, hi⟩
    · subst hk
      simp only [Function.update_self]
      exact ⟨rfl, Nat.zero_le m, BitVec.zero_mul.symm⟩
    · have hne : k.val ≠ i := fun heq => hk (Fin.ext heq)
      rw [Function.update_of_ne hk, Function.update_of_ne hne]
      exact hthread k
  · show s.accesses ++ [i] = List.range (i + 1) ++ List.range 0
    rw [haccesses, List.range_succ]
    simp

/-- A step of a thread. -/
theorem Inv.move {s : State n} (hs : Inv m v s) {k : Fin n} {heap : Memory CInt} {pc : ThreadPc}
    (h : thread_work m v s.heap (s.thread k) = some (heap, pc)) :
    Inv m v { s with heap := heap, thread := update s.thread k pc } := by
  obtain ⟨hcreated, hsummed, halloc, hspawned, hjoined, hbuf, hthread, hshared, haccesses⟩ := hs
  cases hpc : s.thread k with
  | absent | done =>
    rw [hpc] at h
    cases h
  | loop total_arg i acc =>
    have hok := hthread k
    rw [hpc] at hok h
    obtain ⟨rfl, hi, hacc⟩ := hok
    have hne : s.thread k ≠ .absent := by rw [hpc]; exact nofun
    have hrun : s.thread k ≠ .done := by rw [hpc]; exact nofun
    rw [thread_work] at h
    split_ifs at h with him
    · cases h
      refine ⟨hcreated, hsummed, halloc, hspawned.move hne nofun, hjoined.move hrun, hbuf, ?_,
        hshared, haccesses⟩
      refine (Function.forall_update_iff s.thread fun l pc => pc.Ok m v l (s.heap l)).mpr
        ⟨⟨rfl, him, ?_⟩, fun l _ => hthread l⟩
      rw [hacc, BitVec.ofNat_add, BitVec.add_mul, BitVec.one_mul]
    · cases h
      obtain rfl : i = m := Nat.le_antisymm hi (Nat.le_of_not_lt him)
      refine ⟨hcreated, hsummed, halloc, hspawned.move hne nofun, hjoined.move hrun, hbuf, ?_,
        hshared, haccesses⟩
      refine (Function.forall_update_iff s.thread fun l pc =>
        pc.Ok i v l (update s.heap (k : ℕ) acc l)).mpr ⟨?_, fun l hl => ?_⟩
      · show update s.heap (k : ℕ) acc k = total i v
        rw [Function.update_self, hacc, total]
      · rw [Function.update_of_ne fun heq => hl (Fin.ext heq)]
        exact hthread l

/-- `main` adds up one more accumulator. -/
theorem Inv.sum {s : State n} (hs : Inv m v s) {j : ℕ} (hpc : s.main = .summing j) (hj : j < n) :
    Inv m v { s with
      sharedVariable := s.sharedVariable + toULong (s.heap (s.buf j))
      main := .summing (j + 1)
      accesses := s.accesses ++ [j] } := by
  obtain ⟨hcreated, -, halloc, hspawned, hjoined, hbuf, hthread, hshared, haccesses⟩ := hs
  rw [hpc] at hcreated halloc hspawned hjoined hbuf hshared haccesses
  have hheap : s.heap j = total m v := by
    have hok := hthread ⟨j, hj⟩
    rw [hjoined ⟨j, hj⟩ hj] at hok
    exact hok
  refine ⟨hcreated, hj, halloc, hspawned, hjoined, hbuf, hthread, ?_, ?_⟩
  · show s.sharedVariable + toULong (s.heap (s.buf j))
      = BitVec.ofNat 64 (j + 1) * toULong (total m v)
    rw [hbuf j hj, hheap, hshared, BitVec.ofNat_add, BitVec.add_mul, BitVec.one_mul]
    rfl
  · show s.accesses ++ [j] = List.range n ++ List.range (j + 1)
    rw [haccesses, List.range_succ, List.append_assoc]
    rfl

theorem Inv.step {s s' : State n} {t : Agent n} (hs : Inv m v s) (h : step m v s t = some s') :
    Inv m v s' := by
  cases t with
  | thread k =>
    obtain ⟨⟨heap, pc⟩, hstep, rfl⟩ := Option.map_eq_some_iff.mp h
    exact hs.move hstep
  | main =>
    simp only [LocalCounter.step, main] at h
    cases hpc : s.main with
    | creating i =>
      rw [hpc] at h
      simp only at h
      split_ifs at h with hi
      · cases h
        exact hs.create hpc hi
      · cases h
        obtain ⟨hcreated, -, halloc, hspawned, -, hbuf, hthread, hshared, haccesses⟩ := hs
        rw [hpc] at hcreated halloc hspawned hbuf hshared haccesses
        obtain rfl : i = n := Nat.le_antisymm hcreated (Nat.le_of_not_lt hi)
        exact ⟨le_rfl, Nat.zero_le _, halloc, hspawned, joinedBelow_zero _ _, hbuf, hthread,
          hshared, haccesses⟩
    | joining i =>
      rw [hpc] at h
      simp only at h
      obtain ⟨-, -, halloc, hspawned, hjoined, hbuf, hthread, hshared, haccesses⟩ := hs
      rw [hpc] at halloc hspawned hjoined hbuf hshared haccesses
      split_ifs at h with hi hdone
      · cases h
        exact ⟨le_rfl, Nat.zero_le _, halloc, hspawned, hjoined.join hi hdone, hbuf, hthread,
          hshared, haccesses⟩
      · cases h
        exact ⟨le_rfl, Nat.zero_le _, halloc, hspawned,
          fun k _ => hjoined.all (Nat.le_of_not_lt hi) k, hbuf, hthread, hshared, haccesses⟩
    | summing j =>
      rw [hpc] at h
      simp only at h
      split_ifs at h with hj
      · cases h
        exact hs.sum hpc hj
      · cases h
        obtain ⟨-, hsummed, halloc, hspawned, hjoined, hbuf, hthread, hshared, haccesses⟩ := hs
        rw [hpc] at hsummed halloc hspawned hjoined hbuf hshared haccesses
        obtain rfl : j = n := Nat.le_antisymm hsummed (Nat.le_of_not_lt hj)
        exact ⟨le_rfl, le_rfl, halloc, hspawned, hjoined, hbuf, hthread, hshared, haccesses⟩
    | comparing =>
      rw [hpc] at h
      cases h
      obtain ⟨-, -, halloc, hspawned, hjoined, hbuf, hthread, hshared, haccesses⟩ := hs
      rw [hpc] at halloc hspawned hjoined hbuf hshared haccesses
      exact ⟨le_rfl, le_rfl, halloc, hspawned, hjoined, hbuf, hthread, hshared, haccesses⟩
    | finished o =>
      rw [hpc] at h
      cases h

theorem inv_of_reachable {s : State n} (h : (program n m v).Reachable s) : Inv m v s := by
  refine h.invariant ?_ fun _ _ _ _ hs hstep => hs.step hstep
  rintro s ⟨buf, heap, rfl⟩
  exact inv_start buf heap

/-- What `main` has summed up in the end. -/
theorem Inv.shared_eq {s : State n} (hs : Inv m v s) (h : s.main.AllSummed) :
    s.sharedVariable = BitVec.ofNat 64 n * toULong (total m v) := by
  rw [hs.shared]
  cases hpc : s.main with
  | comparing | finished o => rfl
  | creating i | joining i | summing j =>
    rw [hpc] at h
    exact h.elim

/-- `main` uses the indexes below `n`. -/
theorem Inv.lt_of_mem_accesses {s : State n} (hs : Inv m v s) {i : ℕ} (hi : i ∈ s.accesses) :
    i < n := by
  rw [hs.accesses, List.mem_append, List.mem_range, List.mem_range] at hi
  have := hs.created_le
  have := hs.summed_le
  omega

/-- All of them have been used in the end. -/
theorem Inv.mem_accesses {s : State n} (hs : Inv m v s) (h : s.main.AllSummed) {i : ℕ}
    (hi : i < n) : i ∈ s.accesses := by
  rw [hs.accesses, List.mem_append, List.mem_range, List.mem_range]
  cases hpc : s.main with
  | comparing | finished o => exact .inl hi
  | creating j | joining j | summing j =>
    rw [hpc] at h
    exact h.elim

/-! ### The end of the program -/

/-- When nobody can move, the program is over. -/
theorem Inv.finished_of_stuck {s : State n} (hs : Inv m v s)
    (h : (program n m v).Stuck s) : ∃ o, s.main = .finished o := by
  have hthread : ∀ k, s.thread k = .absent ∨ s.thread k = .done := by
    intro k
    have hwork : thread_work m v s.heap (s.thread k) = none :=
      Option.map_eq_none_iff.mp (h (.thread k))
    cases hpc : s.thread k with
    | absent => exact .inl rfl
    | done => exact .inr rfl
    | loop total_arg i acc =>
      rw [hpc, thread_work] at hwork
      split_ifs at hwork
  have hmain : main m v s = none := h .main
  have hspawned := hs.spawned
  unfold main at hmain
  cases hpc : s.main with
  | creating i | summing i =>
    rw [hpc] at hmain
    simp only at hmain
    split_ifs at hmain
  | joining i =>
    rw [hpc] at hmain hspawned
    simp only at hmain
    split_ifs at hmain with hi hdone
    exact absurd ((hthread ⟨i, hi⟩).resolve_left (hspawned.ne_absent le_rfl _)) hdone
  | comparing =>
    rw [hpc] at hmain
    cases hmain
  | finished o => exact ⟨o, rfl⟩

/-- The steps that a thread has ahead of it. -/
@[simp] def ThreadPc.remaining (m : ℕ) : ThreadPc → ℕ
  | .absent | .done => 0
  | .loop _ i _ => m - i + 1

/-- The steps that `main` has ahead of it, and those of the threads it is to create. -/
@[simp] def MainPc.remaining (n m : ℕ) : MainPc → ℕ
  | .creating i => (n - i) * (m + 2) + n + n + 4
  | .joining i => n - i + n + 3
  | .summing j => n - j + 2
  | .comparing => 1
  | .finished _ => 0

/-- The steps that are left. -/
def State.remaining (m : ℕ) (s : State n) : ℕ :=
  s.main.remaining n m + tally (ThreadPc.remaining m) s.thread

/-- Every step brings the program closer to its end. -/
theorem remaining_lt {s s' : State n} {t : Agent n} (h : step m v s t = some s') :
    s'.remaining m < s.remaining m := by
  cases t with
  | thread k =>
    obtain ⟨⟨heap, pc⟩, hstep, rfl⟩ := Option.map_eq_some_iff.mp h
    have htally := tally_update (ThreadPc.remaining m) s.thread k pc
    have hlt : pc.remaining m < (s.thread k).remaining m := by
      cases hpc : s.thread k with
      | absent | done =>
        rw [hpc] at hstep
        cases hstep
      | loop total_arg i acc =>
        rw [hpc, thread_work] at hstep
        split_ifs at hstep
        all_goals
          cases hstep
          simp only [ThreadPc.remaining]
          omega
    simp only [State.remaining]
    omega
  | main =>
    simp only [LocalCounter.step, main] at h
    cases hpc : s.main with
    | creating i =>
      rw [hpc] at h
      simp only at h
      split_ifs at h with hi
      · cases h
        have htally := tally_update (ThreadPc.remaining m) s.thread ⟨i, hi⟩ (.loop s.allocated 0 0)
        have hmul : (n - i) * (m + 2) = (n - (i + 1)) * (m + 2) + (m + 2) := by
          rw [← Nat.succ_mul]
          congr 1
          omega
        simp only [State.remaining, hpc, MainPc.remaining, ThreadPc.remaining] at htally ⊢
        omega
      · cases h
        simp only [State.remaining, hpc, MainPc.remaining]
        omega
    | joining i | summing i =>
      rw [hpc] at h
      simp only at h
      split_ifs at h
      all_goals
        cases h
        simp only [State.remaining, hpc, MainPc.remaining]
        omega
    | comparing =>
      rw [hpc] at h
      cases h
      simp only [State.remaining, hpc, MainPc.remaining]
      omega
    | finished o =>
      rw [hpc] at h
      cases h

/-- The program can come to its end. -/
theorem exists_finished (n m : ℕ) (v : CInt) :
    ∃ s, (program n m v).Reachable s ∧ s.main.AllSummed := by
  have hstart : (program n m v).Reachable (start (fun _ => 0) fun _ => 0) := .init ⟨_, _, rfl⟩
  obtain ⟨s, hs, hquiet⟩ := hstart.exists_quiescent (P := fun _ => true) fun _ _ _ hstep _ =>
    remaining_lt hstep
  obtain ⟨o, ho⟩ := (inv_of_reachable hs).finished_of_stuck fun t => hquiet t rfl
  exact ⟨s, hs, by rw [ho]; trivial⟩

/-! ### The two sums -/

theorem ofInt_eq_iff {w : ℕ} {a b : ℤ} :
    BitVec.ofInt w a = BitVec.ofInt w b ↔ ((2 ^ w : ℕ) : ℤ) ∣ a - b := by
  rw [← BitVec.toInt_inj, BitVec.toInt_ofInt, BitVec.toInt_ofInt,
    Int.bmod_eq_bmod_iff_bmod_sub_eq_zero, ← Int.dvd_iff_bmod_eq_zero]

/-- How often the accumulator of a thread leaves the range of `int`, up or down. -/
def wraps (m : ℕ) (v : CInt) : ℤ := Int.bdiv (m * v.toInt) (2 ^ 32)

theorem total_toInt (m : ℕ) (v : CInt) :
    (total m v).toInt = m * v.toInt - (2 ^ 32 : ℕ) * wraps m v := by
  rw [total, BitVec.toInt_mul, BitVec.toInt_ofNat', Int.bmod_mul_bmod,
    Int.bmod_eq_self_sub_mul_bdiv, wraps]

theorem expectedValue_eq (n m : ℕ) (v : CInt) :
    expectedValue n m v = BitVec.ofInt 64 (n * (m * v.toInt)) := by
  rw [expectedValue, toULong, BitVec.signExtend, BitVec.ofInt_mul, BitVec.ofInt_mul,
    BitVec.ofInt_natCast, BitVec.ofInt_natCast, BitVec.mul_assoc]

/-- The sum of the accumulators is the expected value if what they have lost is a multiple
of `2 ^ 64`. -/
theorem sum_eq_expected_iff (n m : ℕ) (v : CInt) :
    BitVec.ofNat 64 n * toULong (total m v) = expectedValue n m v ↔ 2 ^ 32 ∣ n * wraps m v := by
  have hsum : BitVec.ofNat 64 n * toULong (total m v)
      = BitVec.ofInt 64 (n * (total m v).toInt) := by
    rw [toULong, BitVec.signExtend, BitVec.ofInt_mul, BitVec.ofInt_natCast]
  have hlost : (n * (total m v).toInt - n * (m * v.toInt) : ℤ)
      = 2 ^ 32 * -(n * wraps m v) := by
    rw [total_toInt]
    push_cast
    ring
  rw [hsum, expectedValue_eq, ofInt_eq_iff, hlost,
    show ((2 ^ 64 : ℕ) : ℤ) = 2 ^ 32 * 2 ^ 32 by norm_num,
    mul_dvd_mul_iff_left (by norm_num), dvd_neg]

/-- **When the two programs agree**: `main` stays inside of `BUF`, and in the end it has
the sum that the program of Lab02 has and prints as expected, exactly if there are at
most `N` threads and what their accumulators lose by wrapping around is a multiple of
`2 ^ 64` in all. -/
theorem agrees_iff (n m : ℕ) (v : CInt) :
    (∀ s, (program n m v).Reachable s →
      (∀ i ∈ s.accesses, i < N) ∧
        (s.main.AllSummed → s.sharedVariable = expectedValue n m v ∧
          ∀ s', (SharedCounter.program n m v).Reachable s' → s'.main.AllJoined →
            s.sharedVariable = s'.sharedVariable)) ↔
      n ≤ N ∧ 2 ^ 32 ∣ n * wraps m v := by
  rw [← sum_eq_expected_iff]
  constructor
  · intro h
    obtain ⟨s, hs, hsummed⟩ := exists_finished n m v
    obtain ⟨hbounds, hagree⟩ := h s hs
    have hinv := inv_of_reachable hs
    constructor
    · by_contra hlt
      exact absurd (hbounds N (hinv.mem_accesses hsummed (Nat.lt_of_not_le hlt))) (lt_irrefl N)
    · rw [← hinv.shared_eq hsummed]
      exact (hagree hsummed).1
  · rintro ⟨hn, hsum⟩ s hs
    have hinv := inv_of_reachable hs
    refine ⟨fun i hi => (hinv.lt_of_mem_accesses hi).trans_le hn, fun hsummed => ?_⟩
    have hshared : s.sharedVariable = expectedValue n m v := by
      rw [hinv.shared_eq hsummed, hsum]
    refine ⟨hshared, fun s' hs' hjoined => ?_⟩
    rw [hshared, SharedCounter.shared_eq_of_allJoined hs' hjoined]

/-- One thread that adds 2 ^ 30 twice, and a thread more than there are pointers. -/
theorem disagrees :
    (∃ s, (program 1 2 (2 ^ 30)).Reachable s ∧ s.main.AllSummed ∧
      s.sharedVariable ≠ expectedValue 1 2 (2 ^ 30)) ∧
    ∃ s, (program 1001 1 1).Reachable s ∧ N ∈ s.accesses := by
  constructor
  · obtain ⟨s, hs, hsummed⟩ := exists_finished 1 2 (2 ^ 30)
    refine ⟨s, hs, hsummed, ?_⟩
    rw [(inv_of_reachable hs).shared_eq hsummed]
    decide
  · obtain ⟨s, hs, hsummed⟩ := exists_finished 1001 1 1
    exact ⟨s, hs, (inv_of_reachable hs).mem_accesses hsummed (by decide)⟩

end Inv

end LocalCounter
