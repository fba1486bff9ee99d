/-
What `produce` of `Lab05/src/03` has stored when it returns.

An iteration counts as done whether or not the value was stored, and `localSum`
starts uninitialised.  Here `produce` runs against an environment that sets
`read_index` as it likes.

* `produce_stepsLeft` — every step of `produce` brings it nearer to its end;
* `State.total` — what is stored and what is still to be stored: a test that
  finds the ring full takes one value from it, and nothing else changes it;
* `no_loss_iff` — everything generated is stored and correctly summed exactly
  when no test finds the ring full and `localSum` happens to start at 0.
-/
import SistemiDiCalcolo.LockFree

namespace LockFree

/-- `produce` takes a step, or the other side writes `read_index`. -/
inductive Move
  | produce
  | setRead (r : ℕ)
  deriving DecidableEq, Repr

/-- `produce` against any behaviour of the other side on `read_index`. -/
def produceAlone (prm : Params) : Machine State Move where
  init s := s = initMemory prm
  step s t :=
    match t with
    | .produce => produce prm.bufferSize s
    | .setRead r => some { s with readIndex := r }

/-! ### It returns -/

/-- A bound on the steps that `produce` has yet to take. -/
def Producer.stepsLeft (t : Producer) : ℕ :=
  match t.pc with
  | .loop => 8 * t.ops.length + 1
  | .testWrite => 8 * t.ops.tail.length + 8
  | .testRead _ => 8 * t.ops.tail.length + 7
  | .fetch => 8 * t.ops.tail.length + 6
  | .store _ => 8 * t.ops.tail.length + 5
  | .refetch => 8 * t.ops.tail.length + 4
  | .advance _ => 8 * t.ops.tail.length + 3
  | .add => 8 * t.ops.tail.length + 2
  | .done => 0

theorem produce_stepsLeft {B : ℕ} {s s' : State} (h : produce B s = some s') :
    s'.prod.stepsLeft < s.prod.stepsLeft := by
  cases produce_step h with
  | value v rest hpc hops =>
    simp only [Producer.stepsLeft, hpc, hops, List.tail_cons, List.length_cons]
    omega
  | ended hpc _ | testWrite hpc | free a hpc _ | full a hpc _ | fetch hpc | store i hpc
  | refetch hpc | advance i hpc | add hpc =>
    simp [Producer.stepsLeft, hpc]

/-! ### What is lost -/

/-- The values that the producer has yet to store, if it drops none of them. -/
def Producer.toStore (t : Producer) : List CInt :=
  match t.pc with
  | .refetch | .advance _ | .add => t.ops.tail
  | _ => t.ops

def Producer.Coherent (t : Producer) : Prop :=
  match t.pc with
  | .loop => True
  | .done => t.ops = []
  | _ => t.ops.head? = some t.value

def State.total (s : State) : List CInt := s.stored ++ s.prod.toStore

/-- The step is not a test that finds the ring full. -/
def NotFull (B : ℕ) (s : State) (t : Move) : Prop :=
  t = .produce → ∀ a, s.prod.pc = .testRead a → (a + 1) % B ≠ s.readIndex

section Loss

variable {B : ℕ} {s s' : State} {garbage : CInt} {values : List CInt}

theorem produce_coherent (h : produce B s = some s') (hs : s.prod.Coherent) :
    s'.prod.Coherent := by
  rw [Producer.Coherent] at hs
  cases produce_step h with
  | ended _ hops => exact hops
  | value v rest _ hops =>
    show s.prod.ops.head? = some v
    rw [hops, List.head?_cons]
  | add _ => trivial
  | testWrite hpc | free a hpc _ | full a hpc _ | fetch hpc | store i hpc | refetch hpc
  | advance i hpc =>
    rw [hpc] at hs
    exact hs

/-- A test that finds the ring full drops the value at hand. -/
theorem total_of_full (h : produce B s = some s') (hs : s.prod.Coherent) {a : ℕ}
    (hpc : s.prod.pc = .testRead a) (hfull : (a + 1) % B = s.readIndex) :
    s'.total.length < s.total.length := by
  rw [Producer.Coherent, hpc] at hs
  obtain ⟨rest, hops⟩ := List.head?_eq_some_iff.mp hs
  simp only [produce, hpc, hfull, ne_eq, not_true_eq_false, if_false] at h
  cases h
  simp only [State.total, Producer.toStore, hpc, hops, List.length_append, List.tail_cons,
    List.length_cons]
  omega

/-- The other steps of `produce` drop nothing. -/
theorem total_of_notFull (h : produce B s = some s') (hs : s.prod.Coherent)
    (hok : NotFull B s .produce) : s'.total = s.total := by
  rw [Producer.Coherent] at hs
  cases produce_step h with
  | full a hpc hfull => exact absurd hfull (hok rfl a hpc)
  | store i hpc =>
    rw [hpc] at hs
    simp only [State.total, Producer.toStore, hpc, List.append_assoc, List.singleton_append]
    rw [List.cons_head?_tail hs]
  | ended hpc _ | value v rest hpc _ | testWrite hpc | free a hpc _ | fetch hpc | refetch hpc
  | advance i hpc | add hpc =>
    simp only [State.total, Producer.toStore, hpc]

/-- The sum is what it would be if every value were stored. -/
theorem produce_localSum (h : produce B s = some s') (hs : s.prod.Coherent) :
    s'.prod.localSum + s'.prod.ops.sum = s.prod.localSum + s.prod.ops.sum := by
  rw [Producer.Coherent] at hs
  cases produce_step h with
  | add hpc =>
    rw [hpc] at hs
    show s.prod.localSum + s.prod.value + s.prod.ops.tail.sum = _
    rw [add_assoc, ← List.sum_cons, List.cons_head?_tail hs]
  | ended | value | testWrite | free | full | fetch | store | refetch | advance => rfl

variable {prm : Params} {sched : List Move}

/-- What a run keeps: no value is lost if no test finds the ring full, and at
least one is if some test does. -/
theorem run_total (hrun : (produceAlone prm).run s sched = some s') (hs : s.prod.Coherent) :
    s'.total.length ≤ s.total.length ∧
    ((produceAlone prm).Along (NotFull prm.bufferSize) s sched → s'.total = s.total) ∧
    (¬ (produceAlone prm).Along (NotFull prm.bufferSize) s sched →
      s'.total.length < s.total.length) := by
  induction sched generalizing s with
  | nil =>
    obtain rfl : s = s' := by simpa using hrun
    exact ⟨le_rfl, fun _ => rfl, fun h => absurd trivial h⟩
  | cons t sched ih =>
    obtain ⟨u, hu, hrest⟩ := Machine.run_cons_eq_some.mp hrun
    rw [Machine.along_cons hu]
    cases t with
    | setRead r =>
      obtain rfl : { s with readIndex := r } = u := Option.some_inj.mp hu
      obtain ⟨hle, hsame, hless⟩ := ih hrest hs
      exact ⟨hle, fun h => hsame h.2, fun h => hless fun hr => h ⟨nofun, hr⟩⟩
    | produce =>
      have hstep : produce prm.bufferSize s = some u := hu
      obtain ⟨hle, hsame, hless⟩ := ih hrest (produce_coherent hstep hs)
      by_cases hok : NotFull prm.bufferSize s .produce
      · rw [total_of_notFull hstep hs hok] at hle hsame hless
        exact ⟨hle, fun h => hsame h.2, fun h => hless fun hr => h ⟨hok, hr⟩⟩
      · obtain ⟨a, hpc, hfull⟩ : ∃ a, s.prod.pc = .testRead a ∧ (a + 1) % prm.bufferSize =
            s.readIndex := by simpa [NotFull] using hok
        have hlt := total_of_full hstep hs hpc hfull
        exact ⟨hle.trans hlt.le, fun h => absurd h.1 hok, fun _ => hle.trans_lt hlt⟩

theorem run_localSum (hrun : (produceAlone prm).run s sched = some s') (hs : s.prod.Coherent) :
    s'.prod.Coherent ∧
      s'.prod.localSum + s'.prod.ops.sum = s.prod.localSum + s.prod.ops.sum := by
  refine Machine.run_invariant (I := fun u => u.prod.Coherent ∧
    u.prod.localSum + u.prod.ops.sum = s.prod.localSum + s.prod.ops.sum)
    (fun u t u' hu hstep => ?_) hrun ⟨hs, rfl⟩
  cases t with
  | setRead r =>
    obtain rfl : { u with readIndex := r } = u' := Option.some_inj.mp hstep
    exact hu
  | produce => exact ⟨produce_coherent hstep hu.1, (produce_localSum hstep hu.1).trans hu.2⟩

end Loss

/-- **When nothing is lost**: at the end of any run, `produce` has stored what it
was to store, and prints the sum of what it has stored, exactly when none of its
tests found the ring full and the uninitialised `localSum` was 0. -/
theorem no_loss_iff (prm : Params) {sched : List Move} {s : State}
    (hrun : (produceAlone prm).run (initMemory prm) sched = some s) (hdone : s.prod.pc = .done) :
    (s.stored = prm.values ∧ s.prod.localSum = s.stored.sum) ↔
      (produceAlone prm).Along (NotFull prm.bufferSize) (initMemory prm) sched ∧
        prm.garbage = 0 := by
  obtain ⟨-, hsame, hless⟩ := run_total hrun trivial
  obtain ⟨hcoh, hsum⟩ := run_localSum hrun trivial
  rw [Producer.Coherent, hdone] at hcoh
  simp only at hcoh
  have hstart : (initMemory prm).total = prm.values := rfl
  have hend : s.total = s.stored := by
    rw [State.total, Producer.toStore, hdone, hcoh, List.append_nil]
  rw [hstart, hend] at hsame hless
  -- at the end `localSum` is what it started with, plus all the values
  have hlocal : s.prod.localSum = prm.garbage + prm.values.sum := by
    rw [hcoh, List.sum_nil, add_zero] at hsum
    exact hsum
  constructor
  · rintro ⟨hstored, hprinted⟩
    refine ⟨?_, ?_⟩
    · by_contra hfull
      have := hless hfull
      rw [hstored] at this
      exact lt_irrefl _ this
    · rw [hlocal, hstored] at hprinted
      exact add_eq_right.mp hprinted
  · rintro ⟨hnot, hzero⟩
    refine ⟨hsame hnot, ?_⟩
    rw [hlocal, hsame hnot, hzero, zero_add]

/-- Two values and a ring of two cells, one of which is never used. -/
abbrev twoCells : Params where
  bufferSize := 2
  bufferSize_pos := Nat.two_pos
  values := [5, 6]
  numOps := 0
  garbage := 0

/-- The other side sets `read_index` to 1 after the first store. -/
theorem no_loss_iff_two_cells :
    ∃ s, (produceAlone twoCells).run (initMemory twoCells)
        (List.replicate 8 .produce ++ .setRead 1 :: List.replicate 9 .produce) = some s ∧
      ((s.stored = [5, 6] ∧ s.prod.localSum = s.stored.sum) ↔
        (produceAlone twoCells).Along (NotFull 2) (initMemory twoCells)
          (List.replicate 8 .produce ++ .setRead 1 :: List.replicate 9 .produce) ∧
            (0 : CInt) = 0) :=
  ⟨_, rfl, no_loss_iff twoCells rfl rfl⟩

/-- With `read_index` left at 0, the second value is not stored. -/
theorem two_cells_loses :
    ∃ s, (produceAlone twoCells).run (initMemory twoCells)
        (List.replicate 13 .produce) = some s ∧ s.prod.pc = .done ∧
      s.stored = [5] ∧ s.stored ≠ twoCells.values ∧ s.prod.localSum ≠ s.stored.sum := by
  refine ⟨_, rfl, rfl, rfl, ?_, ?_⟩
  · show [(5 : CInt)] ≠ [5, 6]
    simp
  · show (0 : CInt) + 5 + 6 ≠ [(5 : CInt)].sum
    simp

end LockFree
