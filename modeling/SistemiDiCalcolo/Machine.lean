/-
Machines driven by a schedule.

A machine has a shared state and a set of agents; `step s t` is the state
after agent `t` takes its next atomic step from `s`, and `none` when `t` cannot
move (it is blocked, or it has finished).  An interleaving is a list of agents.

* `Reachable` — the states some schedule leads to, with the invariant rule
  `Reachable.invariant` and the refinement rule `Reachable.refine`;
* `ReachableVia ok` — the states reached by runs all of whose steps meet a
  condition on the state before the step and the agent that moves;
* `run`, `Along` — the same two notions for one given schedule, with the rules
  `run_invariant`, `run_map`, `run_sublist` and `Reachable.iterate`;
* `along_iff_forall`, `along_iff`, `along_iff_prefixes` — when a condition on the steps is what it
  takes;
* `run_measure` — a measure that every step lowers bounds every run;
* `run_countP_measure`, `Reachable.exists_quiescent` — the same when only the steps
  in `P` lower the measure: it bounds how often they occur, and as long as one of
  them is possible the machine can go on, to a state in which none is.
-/
import Mathlib.Logic.Basic
import Mathlib.Data.List.Basic
import Mathlib.Tactic.Common

/-- A machine: its initial states and the step of each agent. -/
structure Machine (σ τ : Type*) where
  init : σ → Prop
  step : σ → τ → Option σ

namespace Machine

variable {σ τ : Type*} {M : Machine σ τ}

/-- The states that some schedule leads to from an initial state. -/
inductive Reachable (M : Machine σ τ) : σ → Prop
  | init {s : σ} : M.init s → Reachable M s
  | step {s s' : σ} (t : τ) : Reachable M s → M.step s t = some s' → Reachable M s'

/-- **The invariant rule**: what holds initially and is preserved by every step
from a reachable state holds in every reachable state. -/
theorem Reachable.invariant {I : σ → Prop} (h₀ : ∀ s, M.init s → I s)
    (hstep : ∀ s t s', M.Reachable s → I s → M.step s t = some s' → I s')
    {s : σ} (h : M.Reachable s) : I s := by
  induction h with
  | init hs => exact h₀ _ hs
  | step t hr hs ih => exact hstep _ t _ hr ih hs

/-- **The refinement rule**: if every step is, through the reading `f`, a step
of `R` or invisible, then an invariant of `R` that holds initially holds of the
reading of every reachable state. -/
theorem Reachable.refine {ρ : Type*} {f : σ → ρ} {R : ρ → ρ → Prop} {J : ρ → Prop}
    (h₀ : ∀ s, M.init s → J (f s))
    (hsim : ∀ s t s', M.Reachable s → M.step s t = some s' → f s' = f s ∨ R (f s) (f s'))
    (hR : ∀ r r', J r → R r r' → J r') {s : σ} (h : M.Reachable s) : J (f s) := by
  refine h.invariant (I := fun s => J (f s)) h₀ fun s t s' hr hs hstep => ?_
  rcases hsim s t s' hr hstep with heq | hstep'
  · rw [heq]
    exact hs
  · exact hR _ _ hs hstep'

/-- No agent can move. -/
def Stuck (M : Machine σ τ) (s : σ) : Prop := ∀ t, M.step s t = none

/-! ### Runs of a given schedule -/

/-- Execute a schedule; `none` as soon as an agent it names cannot move. -/
def run (M : Machine σ τ) : σ → List τ → Option σ
  | s, [] => some s
  | s, t :: ts => (M.step s t).bind fun s' => run M s' ts

@[simp] theorem run_nil (s : σ) : M.run s [] = some s := rfl

theorem run_cons {s s' : σ} {t : τ} {ts : List τ} (h : M.step s t = some s') :
    M.run s (t :: ts) = M.run s' ts := by
  rw [run, h, Option.bind_some]

theorem run_cons_eq_some {s s' : σ} {t : τ} {ts : List τ} :
    M.run s (t :: ts) = some s' ↔ ∃ u, M.step s t = some u ∧ M.run u ts = some s' := by
  rw [run, Option.bind_eq_some_iff]

theorem run_append {s u s' : σ} : ∀ {ts us : List τ}, M.run s ts = some u →
    M.run u us = some s' → M.run s (ts ++ us) = some s'
  | [], _, h₁, h₂ => by
    obtain rfl : s = u := by simpa using h₁
    exact h₂
  | _ :: _, _, h₁, h₂ => by
    obtain ⟨v, hv, hr⟩ := run_cons_eq_some.mp h₁
    exact run_cons_eq_some.mpr ⟨v, hv, run_append hr h₂⟩

theorem run_append_eq_some {s s' : σ} {ts us : List τ} :
    M.run s (ts ++ us) = some s' ↔ ∃ u, M.run s ts = some u ∧ M.run u us = some s' := by
  refine ⟨fun h => ?_, fun ⟨u, h₁, h₂⟩ => run_append h₁ h₂⟩
  induction ts generalizing s with
  | nil => exact ⟨s, rfl, h⟩
  | cons t ts ih =>
    obtain ⟨v, hv, hr⟩ := run_cons_eq_some.mp h
    obtain ⟨u, h₁, h₂⟩ := ih hr
    exact ⟨u, run_cons_eq_some.mpr ⟨v, hv, h₁⟩, h₂⟩

theorem Reachable.run {s s' : σ} {ts : List τ} (hs : M.Reachable s)
    (h : M.run s ts = some s') : M.Reachable s' := by
  induction ts generalizing s with
  | nil =>
    obtain rfl : s = s' := by simpa using h
    exact hs
  | cons t ts ih =>
    obtain ⟨u, hu, hr⟩ := run_cons_eq_some.mp h
    exact ih (hs.step t hu) hr

theorem reachable_iff_run {s' : σ} :
    M.Reachable s' ↔ ∃ s ts, M.init s ∧ M.run s ts = some s' := by
  constructor
  · intro h
    induction h with
    | @init s hs => exact ⟨s, [], hs, rfl⟩
    | @step u u' t _ hu ih =>
      obtain ⟨s, ts, hs, hr⟩ := ih
      exact ⟨s, ts ++ [t], hs, run_append hr (by rw [run_cons hu, run_nil])⟩
  · rintro ⟨s, ts, hs, hr⟩
    exact (Reachable.init hs).run hr

/-- The invariant rule for a given run: what holds at its beginning and is preserved
by every step holds at its end. -/
theorem run_invariant {I : σ → Prop} (hstep : ∀ s t s', I s → M.step s t = some s' → I s')
    {s s' : σ} {ts : List τ} (h : M.run s ts = some s') (hs : I s) : I s' := by
  induction ts generalizing s with
  | nil =>
    obtain rfl : s = s' := by simpa using h
    exact hs
  | cons t ts ih =>
    obtain ⟨u, hu, hr⟩ := run_cons_eq_some.mp h
    exact ih hr (hstep s t u hs hu)

/-- The same when only some agents move. -/
theorem run_invariant_of_mem {I : σ → Prop} {s s' : σ} {ts : List τ}
    (hstep : ∀ s t s', t ∈ ts → I s → M.step s t = some s' → I s') (h : M.run s ts = some s')
    (hs : I s) : I s' := by
  induction ts generalizing s with
  | nil =>
    obtain rfl : s = s' := by simpa using h
    exact hs
  | cons t ts ih =>
    obtain ⟨u, hu, hr⟩ := run_cons_eq_some.mp h
    exact ih (fun s t s' ht => hstep s t s' (List.mem_cons_of_mem _ ht)) hr
      (hstep s t u List.mem_cons_self hs hu)

/-- **The simulation rule**: if the steps of a machine are, through the reading `f`, those of
another one, its runs are too. -/
theorem run_map {ρ : Type*} {N : Machine ρ τ} {f : σ → ρ} {I : σ → Prop}
    (hsim : ∀ s t, I s → N.step (f s) t = (M.step s t).map f)
    (hI : ∀ s t s', I s → M.step s t = some s' → I s') {s : σ} (hs : I s) (ts : List τ) :
    N.run (f s) ts = (M.run s ts).map f := by
  induction ts generalizing s with
  | nil => rfl
  | cons t ts ih =>
    rw [run, run, hsim s t hs]
    cases hu : M.step s t with
    | none => rfl
    | some u => exact ih (hI s t u hs hu)

/-- **The simulation rule with invisible steps**: if every step is, through the readings `f` and
`g`, one of another machine or invisible, a run is one of that machine with some turns left out. -/
theorem run_sublist {ρ υ : Type*} {N : Machine ρ υ} {f : σ → ρ} {g : τ → υ}
    (hsim : ∀ s t s', M.step s t = some s' → f s' = f s ∨ N.step (f s) (g t) = some (f s'))
    {s s' : σ} {ts : List τ} (h : M.run s ts = some s') :
    ∃ us, us.Sublist (ts.map g) ∧ N.run (f s) us = some (f s') := by
  induction ts generalizing s with
  | nil =>
    obtain rfl : s = s' := by simpa using h
    exact ⟨[], List.Sublist.refl [], rfl⟩
  | cons t ts ih =>
    obtain ⟨u, hu, hr⟩ := run_cons_eq_some.mp h
    obtain ⟨us, hus, hrun⟩ := ih hr
    rcases hsim s t u hu with heq | hstep
    · exact ⟨us, hus.cons (g t), heq ▸ hrun⟩
    · exact ⟨g t :: us, hus.cons_cons (g t), (run_cons hstep).trans hrun⟩

/-- **The loop rule**: if a run leads from each stage of a loop to the next, the
stages after a reachable one are reachable. -/
theorem Reachable.iterate {f : ℕ → σ} (h : M.Reachable (f 0)) {k : ℕ}
    (hnext : ∀ i, i < k → ∃ ts, M.run (f i) ts = some (f (i + 1))) : M.Reachable (f k) := by
  induction k with
  | zero => exact h
  | succ k ih =>
    obtain ⟨ts, hrun⟩ := hnext k (Nat.lt_succ_self k)
    exact (ih fun i hi => hnext i (Nat.lt_succ_of_lt hi)).run hrun

/-- A measure lowered by every step bounds the length of every run. -/
theorem run_measure {μ : σ → ℕ} (hμ : ∀ s t s', M.step s t = some s' → μ s' < μ s)
    {s s' : σ} {ts : List τ} (h : M.run s ts = some s') : ts.length + μ s' ≤ μ s := by
  induction ts generalizing s with
  | nil =>
    obtain rfl : s = s' := by simpa using h
    simp
  | cons t ts ih =>
    obtain ⟨u, hu, hr⟩ := run_cons_eq_some.mp h
    have h₁ := hμ s t u hu
    have h₂ := ih hr
    rw [List.length_cons]
    omega

/-- A measure lowered by the steps in `P`, and raised by none, bounds how many of
them a run contains. -/
theorem run_countP_measure {P : τ → Bool} {μ : σ → ℕ}
    (hlt : ∀ s t s', M.step s t = some s' → P t = true → μ s' < μ s)
    (hle : ∀ s t s', M.step s t = some s' → P t = false → μ s' ≤ μ s)
    {s s' : σ} {ts : List τ} (h : M.run s ts = some s') : ts.countP P + μ s' ≤ μ s := by
  induction ts generalizing s with
  | nil =>
    obtain rfl : s = s' := by simpa using h
    simp
  | cons t ts ih =>
    obtain ⟨u, hu, hr⟩ := run_cons_eq_some.mp h
    have h₂ := ih hr
    rw [List.countP_cons]
    cases hP : P t with
    | true =>
      have h₁ := hlt s t u hu hP
      rw [if_pos rfl]
      omega
    | false =>
      have h₁ := hle s t u hu hP
      rw [if_neg Bool.false_ne_true]
      omega

/-- The same from a reachable state, for a measure of the reachable states. -/
theorem Reachable.run_countP {P : τ → Bool} {μ : σ → ℕ}
    (hlt : ∀ s t s', M.Reachable s → M.step s t = some s' → P t = true → μ s' < μ s)
    (hle : ∀ s t s', M.Reachable s → M.step s t = some s' → P t = false → μ s' ≤ μ s)
    {s s' : σ} {ts : List τ} (hs : M.Reachable s) (h : M.run s ts = some s') :
    ts.countP P + μ s' ≤ μ s := by
  induction ts generalizing s with
  | nil =>
    obtain rfl : s = s' := by simpa using h
    simp
  | cons t ts ih =>
    obtain ⟨u, hu, hr⟩ := run_cons_eq_some.mp h
    have h₂ := ih (hs.step t hu) hr
    rw [List.countP_cons]
    cases hP : P t with
    | true =>
      have h₁ := hlt s t u hs hu hP
      rw [if_pos rfl]
      omega
    | false =>
      have h₁ := hle s t u hs hu hP
      rw [if_neg Bool.false_ne_true]
      omega

/-- No step in `P` is possible. -/
def Quiescent (M : Machine σ τ) (P : τ → Bool) (s : σ) : Prop :=
  ∀ t, P t = true → M.step s t = none

/-- **The progress rule**: if the steps in `P` lower a measure, then from every state a
run of such steps leads to one in which none of them is possible. -/
theorem exists_run_quiescent {P : τ → Bool} {μ : σ → ℕ}
    (hlt : ∀ s t s', M.step s t = some s' → P t = true → μ s' < μ s) (s : σ) :
    ∃ ts s', (∀ t ∈ ts, P t = true) ∧ M.run s ts = some s' ∧ M.Quiescent P s' := by
  induction hn : μ s using Nat.strongRecOn generalizing s with
  | _ n ih =>
    by_cases hq : M.Quiescent P s
    · exact ⟨[], s, fun t ht => absurd ht List.not_mem_nil, rfl, hq⟩
    · simp only [Quiescent, not_forall] at hq
      obtain ⟨t, hP, hstep⟩ := hq
      obtain ⟨u, hu⟩ := Option.ne_none_iff_exists'.mp hstep
      obtain ⟨ts, s', hts, hrun, hs'⟩ := ih (μ u) (hn ▸ hlt s t u hu hP) u rfl
      exact ⟨t :: ts, s', List.forall_mem_cons.mpr ⟨hP, hts⟩, by rw [run_cons hu, hrun], hs'⟩

theorem Reachable.exists_quiescent {P : τ → Bool} {μ : σ → ℕ}
    (hlt : ∀ s t s', M.step s t = some s' → P t = true → μ s' < μ s) {s : σ}
    (h : M.Reachable s) : ∃ s', M.Reachable s' ∧ M.Quiescent P s' := by
  obtain ⟨ts, s', -, hrun, hs'⟩ := exists_run_quiescent hlt s
  exact ⟨s', h.run hrun, hs'⟩

/-! ### Runs whose steps meet a condition -/

/-- The states reached by runs in which every step meets `ok`, a condition on
the state before the step and on the agent that takes it. -/
inductive ReachableVia (M : Machine σ τ) (ok : σ → τ → Prop) : σ → Prop
  | init {s : σ} : M.init s → ReachableVia M ok s
  | step {s s' : σ} (t : τ) : ReachableVia M ok s → ok s t → M.step s t = some s' →
      ReachableVia M ok s'

theorem ReachableVia.invariant {ok : σ → τ → Prop} {I : σ → Prop}
    (h₀ : ∀ s, M.init s → I s)
    (hstep : ∀ s t s', I s → ok s t → M.step s t = some s' → I s')
    {s : σ} (h : M.ReachableVia ok s) : I s := by
  induction h with
  | init hs => exact h₀ _ hs
  | step t _ hok hs ih => exact hstep _ t _ ih hok hs

theorem ReachableVia.reachable {ok : σ → τ → Prop} {s : σ} (h : M.ReachableVia ok s) :
    M.Reachable s := by
  induction h with
  | init hs => exact .init hs
  | step t _ _ hs ih => exact ih.step t hs

/-- Every step of the given schedule from `s` meets `ok`. -/
def Along (M : Machine σ τ) (ok : σ → τ → Prop) : σ → List τ → Prop
  | _, [] => True
  | s, t :: ts => ok s t ∧ ∀ s', M.step s t = some s' → Along M ok s' ts

theorem along_cons {ok : σ → τ → Prop} {s s' : σ} {t : τ} {ts : List τ}
    (h : M.step s t = some s') : M.Along ok s (t :: ts) ↔ ok s t ∧ M.Along ok s' ts := by
  rw [Along, h]
  simp

/-- All steps of a run meet `ok` exactly if each of them does in the state it is taken in. -/
theorem along_iff_forall {ok : σ → τ → Prop} {s s' : σ} {ts : List τ} (h : M.run s ts = some s') :
    M.Along ok s ts ↔
      ∀ i t u, ts[i]? = some t → M.run s (ts.take i) = some u → ok u t := by
  induction ts generalizing s with
  | nil => exact iff_of_true trivial fun i t _ ht => absurd ht (Option.some_ne_none t).symm
  | cons t ts ih =>
    obtain ⟨v, hv, hr⟩ := run_cons_eq_some.mp h
    rw [along_cons hv, ih hr]
    constructor
    · rintro ⟨hok, hrest⟩ i t' u ht hu
      cases i with
      | zero =>
        obtain rfl : t = t' := Option.some.inj ht
        obtain rfl : s = u := Option.some.inj hu
        exact hok
      | succ i =>
        rw [List.take_succ_cons, run_cons hv] at hu
        exact hrest i t' u ht hu
    · intro hall
      refine ⟨hall 0 t s rfl rfl, fun i t' u ht hu => hall (i + 1) t' u ht ?_⟩
      rwa [List.take_succ_cons, run_cons hv]

/-- What every step preserves and reflects exactly if it meets `ok` holds at the end of a run
exactly if it holds at its beginning and all steps meet `ok`. -/
theorem along_iff {ok : σ → τ → Prop} {I : σ → Prop}
    (hstep : ∀ s t s', M.step s t = some s' → (I s' ↔ I s ∧ ok s t)) {s s' : σ} {ts : List τ}
    (h : M.run s ts = some s') : I s' ↔ I s ∧ M.Along ok s ts := by
  induction ts generalizing s with
  | nil =>
    obtain rfl : s = s' := by simpa using h
    exact (and_iff_left trivial).symm
  | cons t ts ih =>
    obtain ⟨u, hu, hr⟩ := run_cons_eq_some.mp h
    rw [ih hr, hstep s t u hu, along_cons hu, and_assoc]

/-- **The rule of the exact condition**: if the steps that meet `ok` preserve `J`, which has what
is wanted, and a step from `J` to what is wanted meets `ok`, then all states of a run are as
wanted exactly if all its steps meet `ok`. -/
theorem along_iff_prefixes {ok : σ → τ → Prop} {I J : σ → Prop}
    (hJ : ∀ s t s', J s → ok s t → M.step s t = some s' → J s') (hI : ∀ s, J s → I s)
    (hok : ∀ s t s', J s → M.step s t = some s' → I s' → ok s t) {s s' : σ} {ts : List τ}
    (hs : J s) (h : M.run s ts = some s') :
    (∀ us u, us <+: ts → M.run s us = some u → I u) ↔ M.Along ok s ts := by
  induction ts generalizing s with
  | nil =>
    refine iff_of_true (fun us u hus hu => ?_) trivial
    obtain rfl := List.prefix_nil.mp hus
    obtain rfl : s = u := by simpa using hu
    exact hI s hs
  | cons t ts ih =>
    obtain ⟨v, hv, hr⟩ := run_cons_eq_some.mp h
    rw [along_cons hv]
    constructor
    · intro hall
      -- the prefix of one step tells that this one meets `ok`
      have hone : I v := hall [t] v (List.prefix_append [t] ts) (by rw [run_cons hv, run_nil])
      have hokt := hok s t v hs hv hone
      refine ⟨hokt, (ih (hJ s t v hs hokt hv) hr).mp fun us u hus hu => ?_⟩
      exact hall (t :: us) u (List.cons_prefix_cons.mpr ⟨rfl, hus⟩) ((run_cons hv).trans hu)
    · rintro ⟨hokt, halong⟩ us u hus hu
      cases us with
      | nil =>
        obtain rfl : s = u := by simpa using hu
        exact hI s hs
      | cons t' us =>
        obtain ⟨rfl, hrest⟩ := List.cons_prefix_cons.mp hus
        rw [run_cons hv] at hu
        exact (ih (hJ s t' v hs hokt hv) hr).mpr halong us u hrest hu

end Machine
