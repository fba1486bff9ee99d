/-
The mutual exclusion algorithm of `dijkstra.c`.

Each process runs the body of `dijkstra()` again and again, one program point
for each read or write of `interested[]`, `passed[]` and `k`.  The loop that
inspects the flags of the others runs `while (j < N && j != i)`: it stops at the
process's own number, and the flags of the processes after it are never read.

* `exists_two_critical` — for every number of processes and every initial `k`,
  two processes get into the critical section together;
* `mutual_exclusion` — they do not in the runs in which a process leaves its
  loop only while the flags it has skipped are down;
* `two_critical_or_skipped` — the two together.
-/
import SistemiDiCalcolo.Machine
import Mathlib.Logic.Function.Basic
import Mathlib.Order.Fin.Basic
import Mathlib.Tactic.Common

open Function (update)

namespace Dijkstra

/-- Program points of `dijkstra()`.  `readInterested j` carries the value of `k`
just read, `scan j` the counter of the loop. -/
inductive Pc (N : ℕ)
  | idle
  | readK
  | clearPassed
  | readKAgain
  | readInterested (j : Fin N)
  | writeK
  | setPassed
  | scan (j : ℕ)
  | critical
  | clearInterested
  deriving DecidableEq, Repr

/-- The shared variables and the program points. -/
structure State (N : ℕ) where
  passed : Fin N → Bool
  interested : Fin N → Bool
  k : Fin N
  pc : Fin N → Pc N

section Program

variable {N : ℕ}

/-- The next step of process `i` in `dijkstra()`. -/
def dijkstra (s : State N) (i : Fin N) : Option (State N) :=
  match s.pc i with
  | .idle =>
    some { s with interested := update s.interested i true, pc := update s.pc i .readK }
  | .readK =>
    -- the label `E`
    if s.k ≠ i then some { s with pc := update s.pc i .clearPassed }
    else some { s with pc := update s.pc i .setPassed }
  | .clearPassed =>
    some { s with passed := update s.passed i false, pc := update s.pc i .readKAgain }
  | .readKAgain => some { s with pc := update s.pc i (.readInterested s.k) }
  | .readInterested j =>
    if s.interested j = false then some { s with pc := update s.pc i .writeK }
    else some { s with pc := update s.pc i .readK }
  | .writeK => some { s with k := i, pc := update s.pc i .readK }
  | .setPassed => some { s with passed := update s.passed i true, pc := update s.pc i (.scan 0) }
  | .scan j =>
    if h : j < N ∧ j ≠ i then
      -- `goto E` when the flag is up
      if s.passed ⟨j, h.1⟩ then some { s with pc := update s.pc i .readK }
      else some { s with pc := update s.pc i (.scan (j + 1)) }
    else some { s with pc := update s.pc i .critical }
  | .critical =>
    some { s with passed := update s.passed i false, pc := update s.pc i .clearInterested }
  | .clearInterested =>
    some { s with interested := update s.interested i false, pc := update s.pc i .idle }

/-- All flags down, and nobody has entered. -/
def start (k : Fin N) : State N where
  passed _ := false
  interested _ := false
  k := k
  pc _ := .idle

/-- `N` processes, with `k` initially `k₀`. -/
def processes (k₀ : Fin N) : Machine (State N) (Fin N) where
  init s := s = start k₀
  step := dijkstra

end Program

/-! ### What a step can do -/

section Steps

variable {N : ℕ} {s s' : State N} {t : Fin N}

/-- A step of process `i`, with what it has read. -/
inductive DijkstraStep (s : State N) (i : Fin N) : State N → Prop
  | request : s.pc i = .idle → DijkstraStep s i { s with
      interested := update s.interested i true
      pc := update s.pc i .readK }
  | another : s.pc i = .readK → s.k ≠ i →
      DijkstraStep s i { s with pc := update s.pc i .clearPassed }
  | own : s.pc i = .readK → s.k = i → DijkstraStep s i { s with pc := update s.pc i .setPassed }
  | clearPassed : s.pc i = .clearPassed → DijkstraStep s i { s with
      passed := update s.passed i false
      pc := update s.pc i .readKAgain }
  | readKAgain : s.pc i = .readKAgain →
      DijkstraStep s i { s with pc := update s.pc i (.readInterested s.k) }
  | notInterested (j : Fin N) : s.pc i = .readInterested j → s.interested j = false →
      DijkstraStep s i { s with pc := update s.pc i .writeK }
  | interested (j : Fin N) : s.pc i = .readInterested j → s.interested j = true →
      DijkstraStep s i { s with pc := update s.pc i .readK }
  | writeK : s.pc i = .writeK → DijkstraStep s i { s with k := i, pc := update s.pc i .readK }
  | setPassed : s.pc i = .setPassed → DijkstraStep s i { s with
      passed := update s.passed i true
      pc := update s.pc i (.scan 0) }
  | goBack (j : ℕ) (hj : j < N) : s.pc i = .scan j → j ≠ i → s.passed ⟨j, hj⟩ = true →
      DijkstraStep s i { s with pc := update s.pc i .readK }
  | advance (j : ℕ) (hj : j < N) : s.pc i = .scan j → j ≠ i → s.passed ⟨j, hj⟩ = false →
      DijkstraStep s i { s with pc := update s.pc i (.scan (j + 1)) }
  | enter (j : ℕ) : s.pc i = .scan j → ¬ (j < N ∧ j ≠ i) →
      DijkstraStep s i { s with pc := update s.pc i .critical }
  | leave : s.pc i = .critical → DijkstraStep s i { s with
      passed := update s.passed i false
      pc := update s.pc i .clearInterested }
  | clearInterested : s.pc i = .clearInterested → DijkstraStep s i { s with
      interested := update s.interested i false
      pc := update s.pc i .idle }

theorem dijkstra_step (h : dijkstra s t = some s') : DijkstraStep s t s' := by
  unfold dijkstra at h
  cases hpc : s.pc t with
  | readK =>
    simp only [hpc] at h
    split_ifs at h with hk
    · cases h
      exact .another hpc hk
    · cases h
      exact .own hpc (not_not.mp hk)
  | readInterested j =>
    simp only [hpc] at h
    split_ifs at h with hdown
    · cases h
      exact .notInterested j hpc hdown
    · cases h
      exact .interested j hpc (Bool.eq_true_of_not_eq_false hdown)
  | scan j =>
    simp only [hpc] at h
    split at h
    · next hcond =>
      split_ifs at h with hup
      · cases h
        exact .goBack j hcond.1 hpc hcond.2 hup
      · cases h
        exact .advance j hcond.1 hpc hcond.2 (Bool.eq_false_iff.mpr hup)
    · next hcond =>
      cases h
      exact .enter j hpc hcond
  | idle =>
    rw [hpc] at h
    cases h
    exact .request hpc
  | clearPassed =>
    rw [hpc] at h
    cases h
    exact .clearPassed hpc
  | readKAgain =>
    rw [hpc] at h
    cases h
    exact .readKAgain hpc
  | writeK =>
    rw [hpc] at h
    cases h
    exact .writeK hpc
  | setPassed =>
    rw [hpc] at h
    cases h
    exact .setPassed hpc
  | critical =>
    rw [hpc] at h
    cases h
    exact .leave hpc
  | clearInterested =>
    rw [hpc] at h
    cases h
    exact .clearInterested hpc

end Steps

/-! ### Two processes in the critical section -/

section Violation

variable {N : ℕ} {k₀ : Fin N} {s : State N}

/-- A process up to its write of `k`. -/
theorem run_to_writeK {p : Fin N} (hpc : s.pc p = .idle) (hk : s.k ≠ p)
    (hint : s.interested s.k = false) :
    (processes k₀).run s (List.replicate 5 p) = some
      { s with
        passed := update s.passed p false
        interested := update s.interested p true
        pc := update s.pc p .writeK } := by
  simp [List.replicate, Machine.run, processes, dijkstra, hpc, hk, hint]

/-- The write of `k`. -/
theorem step_writeK {p : Fin N} (hpc : s.pc p = .writeK) :
    (processes k₀).step s p = some { s with k := p, pc := update s.pc p .readK } := by
  simp [processes, dijkstra, hpc]

/-- The first step of a process. -/
theorem step_idle {p : Fin N} (hpc : s.pc p = .idle) :
    (processes k₀).step s p = some
      { s with interested := update s.interested p true, pc := update s.pc p .readK } := by
  simp [processes, dijkstra, hpc]

/-- A process leaving the critical section. -/
theorem run_leave {p : Fin N} (hpc : s.pc p = .critical) :
    (processes k₀).run s [p, p] = some
      { s with
        passed := update s.passed p false
        interested := update s.interested p false
        pc := update s.pc p .idle } := by
  simp [Machine.run, processes, dijkstra, hpc]

/-- The numbers of the two processes. -/
abbrev zero (hN : 2 ≤ N) : Fin N := ⟨0, by omega⟩

abbrev one (hN : 2 ≤ N) : Fin N := ⟨1, by omega⟩

variable (hN : 2 ≤ N)

theorem zero_ne_one : zero hN ≠ one hN := by simp

/-- Process 1, with `k` its own number, reads the flag of process 0 only. -/
theorem run_enter_one (hpc : s.pc (one hN) = .readK) (hk : s.k = one hN)
    (hflag : s.passed (zero hN) = false) :
    (processes k₀).run s (List.replicate 4 (one hN)) = some
      { s with
        passed := update s.passed (one hN) true
        pc := update s.pc (one hN) .critical } := by
  have h₀ : 0 < N := by omega
  simp [List.replicate, Machine.run, processes, dijkstra, hpc, hk, hflag, h₀]

/-- Process 0, once it has written `k`, reads no flag. -/
theorem run_enter_zero (hpc : s.pc (zero hN) = .writeK) :
    (processes k₀).run s (List.replicate 4 (zero hN)) = some
      { s with
        k := zero hN
        passed := update s.passed (zero hN) true
        pc := update s.pc (zero hN) .critical } := by
  simp [List.replicate, Machine.run, processes, dijkstra, hpc]

/-- Nobody has entered, and `k` is `q`. -/
structure Quiet (s : State N) (q : Fin N) : Prop where
  passed : ∀ i, s.passed i = false
  interested : ∀ i, s.interested i = false
  pc : ∀ i, s.pc i = .idle
  k : s.k = q

/-- Process 1 alone, passing once, makes `k` its own number. -/
theorem exists_quiet (k₀ : Fin N) : ∃ s, (processes k₀).Reachable s ∧ Quiet s (one hN) := by
  by_cases hk : k₀ = one hN
  · exact ⟨_, .init rfl, ⟨fun _ => rfl, fun _ => rfl, fun _ => rfl, hk⟩⟩
  have h₁ := (Machine.Reachable.init (M := processes k₀) rfl).run
    (run_to_writeK (s := start k₀) (p := one hN) rfl hk rfl)
  have h₂ := (h₁.step (one hN) (step_writeK (by simp))).run
    (run_enter_one hN (by simp) rfl (by simp [start]))
  refine ⟨_, h₂.run (run_leave (p := one hN) (by simp)),
    ⟨fun i => ?_, fun i => ?_, fun i => ?_, rfl⟩⟩ <;>
    by_cases hi : i = one hN <;> simp [hi, start]

/-- **Mutual exclusion fails**: with process 0 about to write `k`, process 1
passes; process 0 then writes `k` and passes without reading a flag. -/
theorem exists_two_critical (k₀ : Fin N) :
    ∃ s, (processes k₀).Reachable s ∧ s.pc (zero hN) = .critical ∧ s.pc (one hN) = .critical := by
  obtain ⟨s, hs, hpassed, hint, hpc, hk⟩ := exists_quiet hN k₀
  have hne := zero_ne_one hN
  have h₁ := hs.run (run_to_writeK (p := zero hN) (hpc _) (by rw [hk]; exact hne.symm) (hint _))
  have h₂ := (h₁.step (one hN) (step_idle (by simp [hpc]))).run
    (run_enter_one hN (by simp) hk (by simp))
  refine ⟨_, h₂.run (run_enter_zero hN (by simp)), ?_, ?_⟩ <;> simp

end Violation

/-! ### The flags that a process skips -/

section Skipped

variable {N : ℕ} {k₀ : Fin N} {s s' : State N} {t i l : Fin N}

/-- When process `i` is about to leave its loop, the flags of the processes after
it are down. -/
def SkippedDown (s : State N) (i : Fin N) : Prop :=
  ∀ j, s.pc i = .scan j → ¬ (j < N ∧ j ≠ i) → ∀ l, i < l → s.passed l = false

/-- Process `l` has got past the flag of process `i` since it raised its own. -/
def Past (s : State N) (l i : Fin N) : Prop :=
  s.pc l = .critical ∨ ∃ j, s.pc l = .scan j ∧ i < j

/-- A process in its loop or in the critical section has its flag up, and none
after it has got past it. -/
structure Inv (s : State N) : Prop where
  scanning : ∀ i j, s.pc i = .scan j → s.passed i = true
  critical : ∀ i, s.pc i = .critical → s.passed i = true
  apart : ∀ i l, i < l → s.pc i = .critical → ¬ Past s l i

theorem Inv.passed_of_past (hs : Inv s) (h : Past s l i) : s.passed l = true := by
  rcases h with h | ⟨j, h, -⟩
  · exact hs.critical l h
  · exact hs.scanning l j h

/-- A step changes only the mover's own flag and program point. -/
theorem dijkstra_frame (h : dijkstra s t = some s') (hi : i ≠ t) :
    s'.passed i = s.passed i ∧ s'.pc i = s.pc i := by
  cases dijkstra_step h <;> simp [Function.update_of_ne hi]

/-- A process keeps its flag up in its loop and in the critical section. -/
theorem dijkstra_passed (hs : Inv s) (h : dijkstra s t = some s')
    (hpc' : s'.pc t = .critical ∨ ∃ j, s'.pc t = .scan j) : s'.passed t = true := by
  cases dijkstra_step h with
  | setPassed hpc => exact Function.update_self ..
  | advance j hj hpc _ _ => exact hs.scanning t j hpc
  | enter j hpc _ => exact hs.scanning t j hpc
  | request hpc | another hpc _ | own hpc _ | clearPassed hpc | readKAgain hpc
  | notInterested j hpc _ | interested j hpc _ | writeK hpc | goBack j hj hpc _ _ | leave hpc
  | clearInterested hpc =>
    simp at hpc'

/-- A process gets to the critical section by leaving its loop. -/
theorem dijkstra_critical (h : dijkstra s t = some s') (hpc' : s'.pc t = .critical) :
    ∃ j, s.pc t = .scan j ∧ ¬ (j < N ∧ j ≠ t) := by
  cases dijkstra_step h with
  | enter j hpc hcond => exact ⟨j, hpc, hcond⟩
  | request hpc | another hpc _ | own hpc _ | clearPassed hpc | readKAgain hpc
  | notInterested j hpc _ | interested j hpc _ | writeK hpc | setPassed hpc | goBack j hj hpc _ _
  | advance j hj hpc _ _ | leave hpc | clearInterested hpc =>
    simp at hpc'

/-- A process gets past another only while the other's flag is down. -/
theorem dijkstra_past (h : dijkstra s t = some s') (hit : i < t) (hflag : s.passed i = true)
    (hpast : Past s' t i) : Past s t i := by
  unfold Past at hpast ⊢
  cases dijkstra_step h with
  | advance j hj hpc hne hdown =>
    -- all that matters is that the flag of `i` has been read already
    refine .inr ⟨j, hpc, ?_⟩
    have hle : i.val ≤ j := by
      simp at hpast
      omega
    refine lt_of_le_of_ne hle fun heq => ?_
    obtain rfl : i = ⟨j, hj⟩ := Fin.ext heq
    rw [hflag] at hdown
    cases hdown
  | enter j hpc hcond =>
    refine .inr ⟨j, hpc, ?_⟩
    by_contra hji
    have ht := t.isLt
    have hlt : i.val < t.val := hit
    exact hcond (by omega)
  | request hpc | another hpc _ | own hpc _ | clearPassed hpc | readKAgain hpc
  | notInterested j hpc _ | interested j hpc _ | writeK hpc | setPassed hpc | goBack j hj hpc _ _
  | leave hpc | clearInterested hpc =>
    simp at hpast

theorem inv_start (k₀ : Fin N) : Inv (start k₀) where
  scanning i j h := by cases h
  critical i h := by cases h
  apart i l _ h := by cases h

/-- A step that does not leave the loop over a raised flag keeps the
invariant. -/
theorem Inv.step (hs : Inv s) (hok : SkippedDown s t) (h : dijkstra s t = some s') : Inv s' := by
  refine ⟨fun i j hpc => ?_, fun i hpc => ?_, fun i l hil hcrit hpast => ?_⟩
  · by_cases hi : i = t
    · subst hi
      exact dijkstra_passed hs h (.inr ⟨j, hpc⟩)
    · rw [(dijkstra_frame h hi).1]
      exact hs.scanning i j ((dijkstra_frame h hi).2 ▸ hpc)
  · by_cases hi : i = t
    · subst hi
      exact dijkstra_passed hs h (.inl hpc)
    · rw [(dijkstra_frame h hi).1]
      exact hs.critical i ((dijkstra_frame h hi).2 ▸ hpc)
  · by_cases hi : i = t
    · -- the mover has just left its loop: `l` has its flag up
      subst hi
      have hl : l ≠ i := (ne_of_lt hil).symm
      obtain ⟨j, hpc, hexit⟩ := dijkstra_critical h hcrit
      have hdown := hok j hpc hexit l hil
      rw [Past, (dijkstra_frame h hl).2] at hpast
      rw [hs.passed_of_past hpast] at hdown
      cases hdown
    · have hcrit' : s.pc i = .critical := (dijkstra_frame h hi).2 ▸ hcrit
      by_cases hl : l = t
      · subst hl
        exact hs.apart i l hil hcrit' (dijkstra_past h hil (hs.critical i hcrit') hpast)
      · rw [Past, (dijkstra_frame h hl).2] at hpast
        exact hs.apart i l hil hcrit' hpast

/-- **Mutual exclusion** in the runs that leave the loop with the skipped flags
down. -/
theorem mutual_exclusion (h : (processes k₀).ReachableVia SkippedDown s)
    (hi : s.pc i = .critical) (hl : s.pc l = .critical) : i = l := by
  have hinv : Inv s := by
    refine h.invariant (I := Inv) ?_ fun _ _ _ hs hok hstep => hs.step hok hstep
    rintro s rfl
    exact inv_start k₀
  rcases lt_trichotomy i l with hlt | heq | hlt
  · exact absurd (.inl hl) (hinv.apart i l hlt hi)
  · exact heq
  · exact absurd (.inl hi) (hinv.apart l i hlt hl)

end Skipped

/-- **The algorithm of `dijkstra.c`**: with two processes or more it lets two of
them into the critical section in some run, whatever the initial `k`; and every
run that does so leaves a loop over a raised flag. -/
theorem two_critical_or_skipped (N : ℕ) (hN : 2 ≤ N) (k₀ : Fin N) :
    (∃ s, (processes k₀).Reachable s ∧
      ∃ i l, i ≠ l ∧ s.pc i = .critical ∧ s.pc l = .critical) ∧
    ∀ s, (processes k₀).ReachableVia SkippedDown s →
      ∀ i l, s.pc i = .critical → s.pc l = .critical → i = l := by
  refine ⟨?_, fun s hs i l hi hl => mutual_exclusion hs hi hl⟩
  obtain ⟨s, hs, hzero, hone⟩ := exists_two_critical hN k₀
  exact ⟨s, hs, _, _, zero_ne_one hN, hzero, hone⟩

/-- Two processes. -/
theorem two_critical_or_skipped_two :
    (∃ s, (processes (0 : Fin 2)).Reachable s ∧
      ∃ i l, i ≠ l ∧ s.pc i = .critical ∧ s.pc l = .critical) ∧
    ∀ s, (processes (0 : Fin 2)).ReachableVia SkippedDown s →
      ∀ i l, s.pc i = .critical → s.pc l = .critical → i = l :=
  two_critical_or_skipped 2 le_rfl 0

/-- The ten processes of the program, with `k` initially 0. -/
theorem ten_two_critical :
    ¬ ∀ s, (processes (0 : Fin 10)).Reachable s →
      ∀ i l, s.pc i = .critical → s.pc l = .critical → i = l := by
  intro h
  obtain ⟨s, hs, hzero, hone⟩ := exists_two_critical (N := 10) (by decide) 0
  exact zero_ne_one (by decide) (h s hs _ _ hzero hone)

end Dijkstra
