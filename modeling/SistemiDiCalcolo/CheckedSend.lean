/-
A loop of `send` that checks each result.

The loop goes on until all bytes are counted, as one that allows for partial results does; but
a result other than a given one is an error.

* `loop` — the loop, one step for each result;
* `run_eq_iff_delivers` — what a machine that follows the loop does;
* `delivers_iff` — it gets the message across if and only if the result it checks for is the
  length of the message, and one `send` takes all of it.
-/
import SistemiDiCalcolo.Machine
import SistemiDiCalcolo.Descriptor

namespace CheckedSend

inductive Pc
  | sending (bytes_sent : ℕ)
  | ended
  | failed
  deriving DecidableEq, Repr

/-- The program point, and what has been taken. -/
structure State (α : Type*) where
  pc : Pc
  accepted : List α

section Loop

variable {α : Type*}

/-- The test of the loop. -/
def test (msg_len bytes_sent : ℕ) : Pc :=
  if 0 < msg_len - bytes_sent then .sending bytes_sent else .ended

/-- The next result of `send`, which is given the rest of the message. -/
def step (expected : ℕ) (buf : Memory α) (msg_len : ℕ) (s : State α) (ret : Ret) :
    Option (State α) :=
  match s.pc, ret with
  | .sending bytes_sent, .eintr => some { s with pc := test msg_len bytes_sent }
  | .sending bytes_sent, .moved n =>
    if 0 < n ∧ n ≤ msg_len - bytes_sent then
      -- what has been taken counts for `accepted` even if the loop fails on it
      some {
        pc := if n ≠ expected then .failed else test msg_len (bytes_sent + n)
        accepted := s.accepted ++ buf.load bytes_sent n }
    else none
  | _, _ => none

/-- Nothing has been sent. -/
def start (msg_len : ℕ) : State α := ⟨test msg_len 0, []⟩

/-- The loop, on the first `msg_len` elements of the buffer. -/
def loop (expected : ℕ) (buf : Memory α) (msg_len : ℕ) : Machine (State α) Ret where
  init s := s = start msg_len
  step := step expected buf msg_len

/-- With these results the loop is over, and the message has been taken. -/
def Delivers (expected : ℕ) (buf : Memory α) (msg_len : ℕ) (rets : List Ret) : Prop :=
  ∃ s, (loop expected buf msg_len).run (start msg_len) rets = some s ∧ s.pc = .ended ∧
    s.accepted = buf.load 0 msg_len

/-- The first `send` that is not interrupted takes everything. -/
def Whole (msg_len : ℕ) (rets : List Ret) : Prop :=
  ∃ k, rets = List.replicate k .eintr ++ [.moved msg_len]

variable {expected msg_len : ℕ} {buf : Memory α} {rets : List Ret} {s : State α}

theorem test_of_pos (h : 0 < msg_len) : test msg_len 0 = .sending 0 := if_pos h

theorem test_self : test msg_len msg_len = .ended := if_neg (by omega)

theorem whole_moved {n : ℕ} : Whole msg_len (.moved n :: rets) ↔ n = msg_len ∧ rets = [] := by
  constructor
  · rintro ⟨k, hk⟩
    cases k with
    | zero =>
      obtain ⟨hn, hrets⟩ := List.cons.inj hk
      exact ⟨Ret.moved.inj hn, hrets⟩
    | succ k => exact Ret.noConfusion (List.cons.inj hk).1
  · rintro ⟨rfl, rfl⟩
    exact ⟨0, rfl⟩

theorem whole_eintr : Whole msg_len (.eintr :: rets) ↔ Whole msg_len rets := by
  constructor
  · rintro ⟨k, hk⟩
    cases k with
    | zero => exact Ret.noConfusion (List.cons.inj hk).1
    | succ k => exact ⟨k, (List.cons.inj hk).2⟩
  · rintro ⟨k, rfl⟩
    exact ⟨k + 1, rfl⟩

/-- Inside the loop there is something left to send. -/
def State.Within (msg_len : ℕ) (s : State α) : Prop := ∀ k, s.pc = .sending k → k < msg_len

theorem within_test {k : ℕ} {xs : List α} : State.Within msg_len ⟨test msg_len k, xs⟩ := by
  intro j hj
  change test msg_len k = .sending j at hj
  rw [test] at hj
  split_ifs at hj with hpos
  cases hj
  exact Nat.lt_of_sub_pos hpos

theorem State.Within.step {ret : Ret} {s' : State α}
    (h : step expected buf msg_len s ret = some s') : s'.Within msg_len := by
  cases hpc : s.pc with
  | ended | failed =>
    simp only [CheckedSend.step, hpc] at h
    cases h
  | sending k =>
    cases ret with
    | eintr =>
      simp only [CheckedSend.step, hpc] at h
      cases h
      exact within_test
    | moved n =>
      simp only [CheckedSend.step, hpc] at h
      split_ifs at h
      · cases h
        exact nofun
      · cases h
        exact within_test

/-- After the loop there is no call of `send`. -/
theorem run_of_stopped {s' : State α} (hpc : ∀ k, s.pc ≠ .sending k)
    (h : (loop expected buf msg_len).run s rets = some s') : rets = [] ∧ s' = s := by
  cases rets with
  | nil => exact ⟨rfl, (Option.some.inj h).symm⟩
  | cons ret rets =>
    obtain ⟨u, hu, -⟩ := Machine.run_cons_eq_some.mp h
    have hu : step expected buf msg_len s ret = some u := hu
    cases hs : s.pc with
    | sending k => exact absurd hs (hpc k)
    | ended | failed =>
      simp only [step, hs] at hu
      cases hu

/-- What becomes of the message after a first result. -/
theorem step_start (hpos : 0 < msg_len) {ret : Ret} {u : State α}
    (h : step expected buf msg_len (start msg_len) ret = some u) :
    ret = .eintr ∧ u = start msg_len ∨
      ∃ n, ret = .moved n ∧ n ≤ msg_len ∧
        (n ≠ expected ∧ u.pc = .failed ∨
          n = expected ∧ u = ⟨test msg_len n, buf.load 0 n⟩) := by
  have hpc : (start msg_len : State α).pc = .sending 0 := test_of_pos hpos
  cases ret with
  | eintr =>
    simp only [step, hpc] at h
    cases h
    exact .inl ⟨rfl, rfl⟩
  | moved n =>
    simp only [step, hpc] at h
    split_ifs at h with hn hne
    · cases h
      exact .inr ⟨n, rfl, hn.2, .inl ⟨hne, rfl⟩⟩
    · cases h
      refine .inr ⟨n, rfl, hn.2, .inr ⟨not_not.mp hne, ?_⟩⟩
      rw [Nat.zero_add]
      rfl

/-- **The check**: a loop that takes nothing shorter than the message for success delivers it if
and only if the first result that counts is the whole length, and that is what it checks for. -/
theorem delivers_iff (hpos : 0 < msg_len) (hle : msg_len ≤ expected) :
    Delivers expected buf msg_len rets ↔ expected = msg_len ∧ Whole msg_len rets := by
  induction rets with
  | nil =>
    refine iff_of_false ?_ ?_
    · rintro ⟨s, hrun, hover, -⟩
      obtain rfl := Option.some.inj hrun
      rw [start, test_of_pos hpos] at hover
      cases hover
    · rintro ⟨-, k, hk⟩
      exact List.append_ne_nil_of_right_ne_nil _ (List.cons_ne_nil _ _) hk.symm
  | cons ret rets ih =>
    cases ret with
    | eintr =>
      have hstep : (loop expected buf msg_len).step (start msg_len) .eintr
          = some (start msg_len) := by
        show step expected buf msg_len (start msg_len) .eintr = _
        have hpc : (start msg_len : State α).pc = .sending 0 := test_of_pos hpos
        simp only [step, hpc]
        rfl
      rw [whole_eintr, ← ih, Delivers, Machine.run_cons hstep]
      rfl
    | moved n =>
      rw [whole_moved]
      constructor
      · rintro ⟨s, hrun, hover, -⟩
        obtain ⟨u, hu, hrest⟩ := Machine.run_cons_eq_some.mp hrun
        rcases step_start hpos hu with ⟨hret, -⟩ | ⟨m, hret, hm, ⟨-, hfailed⟩ | ⟨heq, rfl⟩⟩
        · cases hret
        · -- not the result it checks for: the loop has failed for good
          obtain ⟨-, rfl⟩ := run_of_stopped (by rw [hfailed]; exact nofun) hrest
          rw [hfailed] at hover
          cases hover
        · obtain rfl := Ret.moved.inj hret
          obtain rfl : n = msg_len := Nat.le_antisymm hm (heq ▸ hle)
          obtain ⟨hnil, -⟩ := run_of_stopped (by rw [test_self]; exact nofun) hrest
          exact ⟨heq.symm, rfl, hnil⟩
      · rintro ⟨rfl, rfl, rfl⟩
        have hstep : (loop n buf n).step (start n) (.moved n)
            = some ⟨test n n, buf.load 0 n⟩ := by
          show step n buf n (start n) (.moved n) = _
          have hpc : (start n : State α).pc = .sending 0 := test_of_pos hpos
          have hroom : 0 < n ∧ n ≤ n - 0 := ⟨hpos, le_rfl⟩
          simp only [step, hpc, if_pos hroom, ne_eq, not_true, if_false, Nat.zero_add]
          rfl
        exact ⟨_, Machine.run_cons hstep, test_self, rfl⟩

/-- A machine that follows the loop, and is at `r` exactly where the loop has delivered. -/
theorem run_eq_iff_delivers {ρ : Type*} {N : Machine ρ Ret} {f : State α → ρ} {r : ρ}
    (hsim : ∀ u ret, u.Within msg_len →
      N.step (f u) ret = (step expected buf msg_len u ret).map f)
    (hover : ∀ u, f u = r ↔ u.pc = .ended ∧ u.accepted = buf.load 0 msg_len) (rets : List Ret) :
    N.run (f (start msg_len)) rets = some r ↔ Delivers expected buf msg_len rets := by
  have hstart : (start msg_len : State α).Within msg_len := within_test
  have hrun := Machine.run_map (M := loop expected buf msg_len) hsim
    (fun _ _ _ _ => State.Within.step) hstart rets
  rw [hrun, Option.map_eq_some_iff]
  exact exists_congr fun u => and_congr_right fun _ => hover u

end Loop

end CheckedSend
