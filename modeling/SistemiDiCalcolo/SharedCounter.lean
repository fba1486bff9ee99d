/-
The counter of Lab02 that the threads share (`concurrent_threads.c`).

`main` creates `n` threads and joins them.  Each adds `v` to `shared_variable` `m` times,
every time between `sem_wait` and `sem_post`; the addition is a load and a store of its
own.

* `program` — the program, for the three values of the command line;
* `Inv` — the counter is what the threads have added, and the thread in its section has
  loaded the present value;
* `counter_exact` — at the end the counter has the expected value.
-/
import SistemiDiCalcolo.Machine
import SistemiDiCalcolo.Tally
import SistemiDiCalcolo.Spawn
import SistemiDiCalcolo.Transaction
import Mathlib.Data.BitVec

open Function (update)

/-- The C type `unsigned long`. -/
abbrev ULong := BitVec 64

/-- The conversion of an `int` to `unsigned long`. -/
def toULong (v : CInt) : ULong := v.signExtend 64

namespace SharedCounter

/-- `(unsigned long int)n*m*v`. -/
def expectedValue (n m : ℕ) (v : CInt) : ULong := BitVec.ofNat 64 n * BitVec.ofNat 64 m * toULong v

/-- What `main` prints after the two values: nothing, or the number of lost adds.  `none`
is the division of a program with `v = 0`. -/
inductive Verdict
  | same
  | lost (lost_adds : Option ULong)
  deriving DecidableEq, Repr

/-- `if (expected_value > shared_variable)`. -/
def verdict (v : CInt) (expected_value shared_variable : ULong) : Verdict :=
  if shared_variable < expected_value then
    .lost (if toULong v = 0 then none else some ((expected_value - shared_variable) / toULong v))
  else .same

/-- Equal values are not lost adds. -/
theorem verdict_self (v : CInt) (x : ULong) : verdict v x x = .same :=
  if_neg (BitVec.lt_irrefl x)

/-- Program points of `main`. -/
inductive MainPc
  | creating (i : ℕ)
  | joining (i : ℕ)
  | comparing
  | finished (verdict : Verdict)
  deriving DecidableEq, Repr

/-- Program points of `thread_work`, with the counter of its loop.  `storing` carries the
sum of the loaded value and `v`; `absent` is a thread not created yet. -/
inductive ThreadPc
  | absent
  | loop (i : ℕ)
  | loading (i : ℕ)
  | storing (i : ℕ) (sum : ULong)
  | posting (i : ℕ)
  | done
  deriving DecidableEq, Repr

structure State (n : ℕ) where
  mySem : ℕ
  sharedVariable : ULong
  main : MainPc
  thread : Fin n → ThreadPc

inductive Agent (n : ℕ)
  | main
  | thread (k : Fin n)
  deriving DecidableEq, Repr

section Program

variable {n : ℕ}

/-- The next step of `main`. -/
def main (m : ℕ) (v : CInt) (s : State n) : Option (State n) :=
  match s.main with
  | .creating i =>
    if h : i < n then
      some { s with thread := update s.thread ⟨i, h⟩ (.loop 0), main := .creating (i + 1) }
    else some { s with main := .joining 0 }
  | .joining i =>
    if h : i < n then
      if s.thread ⟨i, h⟩ = .done then some { s with main := .joining (i + 1) } else none
    else some { s with main := .comparing }
  | .comparing =>
    some { s with main := .finished (verdict v (expectedValue n m v) s.sharedVariable) }
  | .finished _ => none

/-- The next step of `thread_work`, on the semaphore and the counter. -/
def thread_work (m : ℕ) (v : CInt) (sem : ℕ) (shared : ULong) (pc : ThreadPc) :
    Option (ℕ × ULong × ThreadPc) :=
  match pc with
  | .loop i =>
    if i < m then
      if 0 < sem then some (sem - 1, shared, .loading i) else none
    else some (sem, shared, .done)
  | .loading i => some (sem, shared, .storing i (shared + toULong v))
  | .storing i sum => some (sem, sum, .posting i)
  | .posting i => some (sem + 1, shared, .loop (i + 1))
  | .absent | .done => none

/-- The next step of an agent. -/
def step (m : ℕ) (v : CInt) (s : State n) : Agent n → Option (State n)
  | .main => main m v s
  | .thread k =>
    (thread_work m v s.mySem s.sharedVariable (s.thread k)).map fun (sem, shared, pc) =>
      { s with mySem := sem, sharedVariable := shared, thread := update s.thread k pc }

/-- What `main` sets up before it creates the threads. -/
def start : State n where
  mySem := 1
  sharedVariable := 0
  main := .creating 0
  thread _ := .absent

/-- The program with the given command line. -/
def program (n m : ℕ) (v : CInt) : Machine (State n) (Agent n) where
  init s := s = start
  step := step m v

end Program

/-! ### What the threads have added -/

section Step

variable {n m : ℕ} {v : CInt}

namespace ThreadPc

/-- 1 between `sem_wait` and `sem_post`. -/
@[simp] def inside : ThreadPc → ℕ
  | .loading _ | .storing _ _ | .posting _ => 1
  | _ => 0

/-- The additions that the thread has stored. -/
@[simp] def added (m : ℕ) : ThreadPc → ℕ
  | .absent => 0
  | .loop i | .loading i | .storing i _ => i
  | .posting i => i + 1
  | .done => m

/-- The counter of the loop is in its range. -/
@[simp] def InRange (m : ℕ) : ThreadPc → Prop
  | .loop i => i ≤ m
  | .loading i | .storing i _ | .posting i => i < m
  | .absent | .done => True

end ThreadPc

namespace MainPc

/-- The threads that `main` has created. -/
@[simp] def created (n : ℕ) : MainPc → ℕ
  | .creating i => i
  | _ => n

/-- The threads that `main` has joined. -/
@[simp] def joined (n : ℕ) : MainPc → ℕ
  | .creating _ => 0
  | .joining i => i
  | _ => n

/-- All threads have been joined. -/
@[simp] def AllJoined : MainPc → Prop
  | .comparing | .finished _ => True
  | _ => False

end MainPc

/-- What a step of `thread_work` can do. -/
inductive ThreadStep (m : ℕ) (v : CInt) (sem : ℕ) (shared : ULong) :
    ThreadPc → ℕ → ULong → ThreadPc → Prop
  | enter (i : ℕ) : i < m → 0 < sem →
      ThreadStep m v sem shared (.loop i) (sem - 1) shared (.loading i)
  | leave (i : ℕ) : ¬ i < m → ThreadStep m v sem shared (.loop i) sem shared .done
  | load (i : ℕ) :
      ThreadStep m v sem shared (.loading i) sem shared (.storing i (shared + toULong v))
  | store (i : ℕ) (sum : ULong) :
      ThreadStep m v sem shared (.storing i sum) sem sum (.posting i)
  | post (i : ℕ) : ThreadStep m v sem shared (.posting i) (sem + 1) shared (.loop (i + 1))

theorem thread_work_step {sem sem' : ℕ} {shared shared' : ULong} {pc pc' : ThreadPc}
    (h : thread_work m v sem shared pc = some (sem', shared', pc')) :
    ThreadStep m v sem shared pc sem' shared' pc' := by
  cases pc with
  | absent => cases h
  | done => cases h
  | loop i =>
    rw [thread_work] at h
    split_ifs at h with hi hsem
    · cases h
      exact .enter i hi hsem
    · cases h
      exact .leave i hi
  | loading i =>
    cases h
    exact .load i
  | storing i sum =>
    cases h
    exact .store i _
  | posting i =>
    cases h
    exact .post i

/-- One step keeps the account of the semaphore; it leaves the counter alone, or it
stores one more addition, from inside the section. -/
theorem ThreadStep.spec {sem sem' : ℕ} {shared shared' : ULong} {pc pc' : ThreadPc}
    (h : ThreadStep m v sem shared pc sem' shared' pc') (hrange : pc.InRange m)
    (hsum : ∀ i sum, pc = .storing i sum → sum = shared + toULong v) :
    sem' + pc'.inside = sem + pc.inside ∧
      (shared' = shared ∧ pc'.added m = pc.added m ∨
        shared' = shared + toULong v ∧ pc'.added m = pc.added m + 1 ∧ pc.inside = 1) ∧
      pc'.InRange m ∧ ∀ i sum, pc' = .storing i sum → sum = shared' + toULong v := by
  cases h with
  | enter i hi hsem => exact ⟨Nat.sub_add_cancel hsem, .inl ⟨rfl, rfl⟩, hi, nofun⟩
  | leave i hi =>
    have hm : m = i := Nat.le_antisymm (Nat.le_of_not_lt hi) hrange
    exact ⟨rfl, .inl ⟨rfl, hm⟩, trivial, nofun⟩
  | load i =>
    refine ⟨rfl, .inl ⟨rfl, rfl⟩, hrange, ?_⟩
    intro j sum hj
    cases hj
    rfl
  | store i sum => exact ⟨rfl, .inr ⟨hsum i _ rfl, rfl, rfl⟩, hrange, nofun⟩
  | post i => exact ⟨rfl, .inl ⟨rfl, rfl⟩, hrange, nofun⟩

/-- A thread that takes a step is neither before its creation nor at its end. -/
theorem ThreadStep.running {sem sem' : ℕ} {shared shared' : ULong} {pc pc' : ThreadPc}
    (h : ThreadStep m v sem shared pc sem' shared' pc') :
    pc ≠ .absent ∧ pc ≠ .done ∧ pc' ≠ .absent := by
  cases h <;> exact ⟨nofun, nofun, nofun⟩

/-- The threads that exist, the semaphore, and the counter. -/
structure Inv (m : ℕ) (v : CInt) (s : State n) : Prop where
  spawned : Spawned .absent (s.main.created n) s.thread
  joined : JoinedBelow .done (s.main.joined n) s.thread
  mutex : s.mySem + tally ThreadPc.inside s.thread = 1
  inRange : ∀ k, (s.thread k).InRange m
  shared : s.sharedVariable = BitVec.ofNat 64 (tally (ThreadPc.added m) s.thread) * toULong v
  loaded : ∀ k i sum, s.thread k = .storing i sum → sum = s.sharedVariable + toULong v

theorem inv_start : Inv m v (start : State n) where
  spawned := spawned_zero _
  joined := joinedBelow_zero _ _
  mutex := by
    rw [start, tally_const]
    simp
  inRange _ := trivial
  shared := by
    rw [start, tally_const]
    simp
  loaded _ _ _ h := by cases h

/-- `main` creates a thread. -/
theorem Inv.create {s : State n} (hs : Inv m v s) {i : ℕ} (hpc : s.main = .creating i)
    (hi : i < n) :
    Inv m v { s with thread := update s.thread ⟨i, hi⟩ (.loop 0), main := .creating (i + 1) } := by
  obtain ⟨hspawned, hjoined, hmutex, hrange, hshared, hloaded⟩ := hs
  rw [hpc] at hspawned
  have habsent : s.thread ⟨i, hi⟩ = .absent := hspawned.eq_absent hi
  have hinside := tally_update ThreadPc.inside s.thread ⟨i, hi⟩ (.loop 0)
  have hadded := tally_update (ThreadPc.added m) s.thread ⟨i, hi⟩ (.loop 0)
  rw [habsent] at hinside hadded
  refine ⟨hspawned.create hi nofun, joinedBelow_zero _ _, ?_, ?_, ?_, ?_⟩
  · rw [← hmutex, Nat.add_right_cancel hinside]
  · exact (Function.forall_update_iff s.thread fun _ pc => pc.InRange m).mpr
      ⟨Nat.zero_le m, fun k _ => hrange k⟩
  · rw [hshared, Nat.add_right_cancel hadded]
  · exact (Function.forall_update_iff s.thread fun _ pc =>
      ∀ j sum, pc = .storing j sum → sum = s.sharedVariable + toULong v).mpr
      ⟨nofun, fun k _ => hloaded k⟩

/-- A step of a thread. -/
theorem Inv.thread {s : State n} (hs : Inv m v s) {k : Fin n} {sem : ℕ} {shared : ULong}
    {pc : ThreadPc} (h : ThreadStep m v s.mySem s.sharedVariable (s.thread k) sem shared pc) :
    Inv m v { s with
      mySem := sem, sharedVariable := shared, thread := update s.thread k pc } := by
  obtain ⟨hspawned, hjoined, hmutex, hrange, hshared, hloaded⟩ := hs
  obtain ⟨hsem, hstore, hrange', hsum⟩ := h.spec (hrange k) (hloaded k)
  obtain ⟨hne, hdone, hne'⟩ := h.running
  have hinside := tally_update ThreadPc.inside s.thread k pc
  have hadded := tally_update (ThreadPc.added m) s.thread k pc
  refine ⟨hspawned.move hne hne', hjoined.move hdone, ?_, ?_, ?_, ?_⟩
  · show sem + tally ThreadPc.inside (update s.thread k pc) = 1
    omega
  · exact (Function.forall_update_iff s.thread fun _ pc => pc.InRange m).mpr
      ⟨hrange', fun l _ => hrange l⟩
  · show shared = BitVec.ofNat 64 (tally (ThreadPc.added m) (update s.thread k pc)) * toULong v
    rcases hstore with ⟨rfl, hsame⟩ | ⟨rfl, hmore, -⟩
    · rw [hsame] at hadded
      rw [hshared, Nat.add_right_cancel hadded]
    · have hone : tally (ThreadPc.added m) (update s.thread k pc)
          = tally (ThreadPc.added m) s.thread + 1 := by omega
      rw [hone, BitVec.ofNat_add, BitVec.add_mul, ← hshared, BitVec.one_mul]
  · refine (Function.forall_update_iff s.thread fun _ pc =>
      ∀ j sum, pc = .storing j sum → sum = shared + toULong v).mpr ⟨hsum, fun l hlk j sum hl => ?_⟩
    rcases hstore with ⟨rfl, -⟩ | ⟨-, -, hin⟩
    · exact hloaded l j sum hl
    · -- only one thread can be inside, and `k` is
      have hl' : (s.thread l).inside = 1 := by rw [hl, ThreadPc.inside]
      exact absurd (tally_sole (by omega) hl' hin) hlk

theorem Inv.step {s s' : State n} {t : Agent n} (hs : Inv m v s) (h : step m v s t = some s') :
    Inv m v s' := by
  cases t with
  | thread k =>
    obtain ⟨⟨sem, shared, pc⟩, hstep, rfl⟩ := Option.map_eq_some_iff.mp h
    exact hs.thread (thread_work_step hstep)
  | main =>
    simp only [SharedCounter.step, main] at h
    cases hpc : s.main with
    | creating i =>
      rw [hpc] at h
      simp only at h
      split_ifs at h with hi
      · cases h
        exact hs.create hpc hi
      · cases h
        obtain ⟨hspawned, hjoined, hmutex, hrange, hshared, hloaded⟩ := hs
        rw [hpc] at hspawned
        exact ⟨hspawned.all (Nat.le_of_not_lt hi), joinedBelow_zero _ _, hmutex, hrange, hshared,
          hloaded⟩
    | joining i =>
      rw [hpc] at h
      simp only at h
      obtain ⟨hspawned, hjoined, hmutex, hrange, hshared, hloaded⟩ := hs
      rw [hpc] at hspawned hjoined
      split_ifs at h with hi hdone
      · cases h
        exact ⟨hspawned, hjoined.join hi hdone, hmutex, hrange, hshared, hloaded⟩
      · cases h
        exact ⟨hspawned, fun k _ => hjoined.all (Nat.le_of_not_lt hi) k, hmutex, hrange, hshared,
          hloaded⟩
    | comparing =>
      rw [hpc] at h
      cases h
      obtain ⟨hspawned, hjoined, hmutex, hrange, hshared, hloaded⟩ := hs
      rw [hpc] at hspawned hjoined
      exact ⟨hspawned, hjoined, hmutex, hrange, hshared, hloaded⟩
    | finished o =>
      rw [hpc] at h
      cases h

theorem inv_of_reachable {s : State n} (h : (program n m v).Reachable s) : Inv m v s :=
  h.invariant (fun _ hs => hs ▸ inv_start) fun _ _ _ _ hs hstep => hs.step hstep

/-- Once all threads have been joined, they have made all their additions. -/
theorem Inv.shared_eq {s : State n} (hs : Inv m v s) (h : s.main.joined n = n) :
    s.sharedVariable = expectedValue n m v := by
  have hdone : s.thread = fun _ => .done := funext fun k => (h ▸ hs.joined).all le_rfl k
  rw [hs.shared, hdone, tally_const, expectedValue, Fintype.card_fin, smul_eq_mul,
    ThreadPc.added, BitVec.ofNat_mul]

/-! ### The end of the program -/

/-- Only a thread at its `sem_wait` can be blocked, and only at value 0. -/
theorem thread_work_eq_none {sem : ℕ} {shared : ULong} {pc : ThreadPc}
    (h : thread_work m v sem shared pc = none) :
    pc.inside = 0 ∧ (pc = .absent ∨ pc = .done ∨ sem = 0) := by
  cases pc with
  | absent => exact ⟨rfl, .inl rfl⟩
  | done => exact ⟨rfl, .inr (.inl rfl)⟩
  | loop i =>
    rw [thread_work] at h
    split_ifs at h with hi hsem
    exact ⟨rfl, .inr (.inr (Nat.eq_zero_of_not_pos hsem))⟩
  | loading i | storing i sum | posting i => cases h

/-- **No deadlock**: when nobody can move, the program is over. -/
theorem Inv.finished_of_stuck {s : State n} (hs : Inv m v s)
    (h : (program n m v).Stuck s) : ∃ o, s.main = .finished o := by
  have hwork : ∀ k, thread_work m v s.mySem s.sharedVariable (s.thread k) = none :=
    fun k => Option.map_eq_none_iff.mp (h (.thread k))
  have hinside : tally ThreadPc.inside s.thread = 0 :=
    tally_eq_zero.mpr fun k => (thread_work_eq_none (hwork k)).1
  -- nobody is inside, so that nobody waits for the semaphore
  have hsem : s.mySem = 1 := by
    have := hs.mutex
    omega
  have hthread : ∀ k, s.thread k = .absent ∨ s.thread k = .done := by
    intro k
    rcases (thread_work_eq_none (hwork k)).2 with habsent | hdone | hzero
    · exact .inl habsent
    · exact .inr hdone
    · omega
  have hmain : main m v s = none := h .main
  have hspawned := hs.spawned
  unfold main at hmain
  cases hpc : s.main with
  | creating i =>
    rw [hpc] at hmain
    simp only at hmain
    split_ifs at hmain
  | joining i =>
    rw [hpc] at hmain hspawned
    simp only at hmain
    split_ifs at hmain with hi hdone
    exact absurd ((hthread ⟨i, hi⟩).resolve_left (hspawned.ne_absent le_rfl _)) hdone
  | comparing =>
    rw [hpc] at hmain
    cases hmain
  | finished o => exact ⟨o, rfl⟩

/-- The steps that a thread has ahead of it. -/
@[simp] def ThreadPc.remaining (m : ℕ) : ThreadPc → ℕ
  | .absent | .done => 0
  | .loop i => 4 * (m - i) + 1
  | .loading i => 4 * (m - (i + 1)) + 4
  | .storing i _ => 4 * (m - (i + 1)) + 3
  | .posting i => 4 * (m - (i + 1)) + 2

/-- The steps that `main` has ahead of it, and those of the threads it is to create. -/
@[simp] def MainPc.remaining (n m : ℕ) : MainPc → ℕ
  | .creating i => (n - i) * (4 * m + 2) + n + 3
  | .joining i => n - i + 2
  | .comparing => 1
  | .finished _ => 0

/-- The steps that are left. -/
def State.remaining (m : ℕ) (s : State n) : ℕ :=
  s.main.remaining n m + tally (ThreadPc.remaining m) s.thread

theorem ThreadStep.remaining_lt {sem sem' : ℕ} {shared shared' : ULong} {pc pc' : ThreadPc}
    (h : ThreadStep m v sem shared pc sem' shared' pc') : pc'.remaining m < pc.remaining m := by
  cases h <;> simp only [ThreadPc.remaining] <;> omega

/-- Every step brings the program closer to its end. -/
theorem remaining_lt {s s' : State n} {t : Agent n} (h : step m v s t = some s') :
    s'.remaining m < s.remaining m := by
  cases t with
  | thread k =>
    obtain ⟨⟨sem, shared, pc⟩, hstep, rfl⟩ := Option.map_eq_some_iff.mp h
    have htally := tally_update (ThreadPc.remaining m) s.thread k pc
    have hlt := (thread_work_step hstep).remaining_lt
    simp only [State.remaining]
    omega
  | main =>
    simp only [SharedCounter.step, main] at h
    cases hpc : s.main with
    | creating i =>
      rw [hpc] at h
      simp only at h
      split_ifs at h with hi
      · cases h
        have htally := tally_update (ThreadPc.remaining m) s.thread ⟨i, hi⟩ (.loop 0)
        -- a thread has all its iterations before it when it is created
        have hmul : (n - i) * (4 * m + 2) = (n - (i + 1)) * (4 * m + 2) + (4 * m + 2) := by
          rw [← Nat.succ_mul]
          congr 1
          omega
        simp only [State.remaining, hpc, MainPc.remaining, ThreadPc.remaining] at htally ⊢
        omega
      · cases h
        simp only [State.remaining, hpc, MainPc.remaining]
        omega
    | joining i =>
      rw [hpc] at h
      simp only at h
      split_ifs at h with hi hdone
      all_goals
        cases h
        simp only [State.remaining, hpc, MainPc.remaining]
        omega
    | comparing =>
      rw [hpc] at h
      cases h
      simp only [State.remaining, hpc, MainPc.remaining]
      omega
    | finished o =>
      rw [hpc] at h
      cases h

/-- From every state the program can go on to its end. -/
theorem exists_finished {s : State n} (h : (program n m v).Reachable s) :
    ∃ s' o, (program n m v).Reachable s' ∧ s'.main = .finished o := by
  obtain ⟨s', hs', hquiet⟩ := h.exists_quiescent (P := fun _ => true) fun _ _ _ hstep _ =>
    remaining_lt hstep
  obtain ⟨o, ho⟩ := (inv_of_reachable hs').finished_of_stuck fun t => hquiet t rfl
  exact ⟨s', o, hs', ho⟩

theorem shared_eq_of_allJoined {s : State n} (h : (program n m v).Reachable s)
    (hall : s.main.AllJoined) : s.sharedVariable = expectedValue n m v := by
  refine (inv_of_reachable h).shared_eq ?_
  cases hpc : s.main with
  | creating i | joining i =>
    rw [hpc] at hall
    exact hall.elim
  | comparing | finished o => rfl

/-- What `main` prints at the end. -/
theorem finished_same {s : State n} (h : (program n m v).Reachable s) :
    ∀ o, s.main = .finished o → o = .same := by
  refine h.invariant (I := fun s => ∀ o, s.main = .finished o → o = .same) ?_ ?_
  · rintro s rfl
    exact nofun
  · intro s t s' hr hs hstep
    cases t with
    | thread k =>
      obtain ⟨⟨sem, shared, pc⟩, -, rfl⟩ := Option.map_eq_some_iff.mp hstep
      exact hs
    | main =>
      have hmain : main m v s = some s' := hstep
      unfold main at hmain
      cases hpc : s.main with
      | creating i | joining i =>
        rw [hpc] at hmain
        simp only at hmain
        split_ifs at hmain
        all_goals
          cases hmain
          exact nofun
      | comparing =>
        rw [hpc] at hmain
        cases hmain
        -- all threads are joined, and no addition is under way
        have heq := (inv_of_reachable hr).shared_eq (by rw [hpc]; rfl)
        intro o ho
        cases ho
        rw [heq, verdict_self]
      | finished o =>
        rw [hpc] at hmain
        cases hmain

/-- **The counter loses no update**: once all threads have been joined it has the expected
value, so the branch of the lost adds is never entered; and no interleaving keeps `main`
from getting there. -/
theorem counter_exact (n m : ℕ) (v : CInt) {s : State n} (h : (program n m v).Reachable s) :
    (s.main.AllJoined → s.sharedVariable = expectedValue n m v) ∧
      (∀ o, s.main = .finished o → o = .same) ∧
      ((program n m v).Stuck s → s.main = .finished .same) := by
  refine ⟨shared_eq_of_allJoined h, finished_same h, fun hstuck => ?_⟩
  obtain ⟨o, ho⟩ := (inv_of_reachable h).finished_of_stuck hstuck
  rw [ho, finished_same h o ho]

/-- Two threads that subtract 7, three times each. -/
theorem counter_exact_two : ∃ s : State 2, (program 2 3 (-7)).Reachable s ∧
    s.main = .finished .same ∧ s.sharedVariable = -42 := by
  obtain ⟨s, o, hs, ho⟩ := exists_finished (Machine.Reachable.init (M := program 2 3 (-7)) rfl)
  obtain ⟨hshared, hsame, -⟩ := counter_exact 2 3 (-7) hs
  refine ⟨s, hs, by rw [ho, hsame o ho], ?_⟩
  rw [hshared (by rw [ho]; trivial)]
  decide

end Step

end SharedCounter
