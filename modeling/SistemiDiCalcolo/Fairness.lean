/-
Machines under schedules that never end.

An execution gives every moment a turn to some agent; an agent that cannot move when its turn
comes leaves the state as it is.  It is fair if every agent has a turn again and again, but for
those that are at rest: what `rests` says of an agent it may do for ever.

* `Execution.LeadsTo` — whenever `P` holds, `Q` holds then or later;
* `LeadsTo.unless` — what the steps keep until something else happens is kept on the way;
* `Fair.leadsTo` — the rule of the helpful agent: in every state some agent can bring the measure
  down, and stays able to until somebody does;
* `Fair.leadsTo_of_decreasing` — the case in which every step brings the measure down, and
  `Fair.leadsTo_of_weights` — the one in which every participant has a measure of its own;
* `execution` — the execution of a schedule; `fair_cycle`, `fair_dovetail` — fair ones, for finitely
  many agents and for any sequence of them; `lasso` — a stem and then a loop for ever.
-/
import SistemiDiCalcolo.Machine
import Mathlib.Algebra.Order.BigOperators.Group.Finset
import Mathlib.Data.Nat.Pairing
import Mathlib.Order.WellFounded

namespace Machine

variable {σ τ : Type*} {M : Machine σ τ}

/-- A schedule without an end, and the states it leads to. -/
structure Execution (M : Machine σ τ) where
  state : ℕ → σ
  agent : ℕ → τ
  init : M.init (state 0)
  next : ∀ n, state (n + 1) = (M.step (state n) (agent n)).getD (state n)

/-- What the steps from `P` are to do until `Q` holds: they bring the measure down, or leave it as
it is and with it the helpful agents, whose own steps bring it down. -/
def Helps {α : Type*} [LT α] (M : Machine σ τ) (P Q : σ → Prop) (μ : σ → α)
    (H : σ → τ → Prop) : Prop :=
  ∀ s t u s', M.Reachable s → P s → ¬ Q s → H s t → M.step s u = some s' →
    Q s' ∨ P s' ∧ (μ s' < μ s ∨ μ s' = μ s ∧ u ≠ t ∧ H s' t)

namespace Execution

variable {e : M.Execution} {P P' Q R B : σ → Prop} {rests : σ → τ → Prop} {n : ℕ}

theorem next_of_some {s : σ} (h : M.step (e.state n) (e.agent n) = some s) :
    e.state (n + 1) = s := by
  rw [e.next, h, Option.getD_some]

theorem next_of_none (h : M.step (e.state n) (e.agent n) = none) :
    e.state (n + 1) = e.state n := by
  rw [e.next, h, Option.getD_none]

theorem reachable (e : M.Execution) (n : ℕ) : M.Reachable (e.state n) := by
  induction n with
  | zero => exact .init e.init
  | succ n ih =>
    cases h : M.step (e.state n) (e.agent n) with
    | none =>
      rw [next_of_none h]
      exact ih
    | some s =>
      rw [next_of_some h]
      exact ih.step _ h

/-- Where no step leads anywhere else, the execution stays. -/
theorem state_of_fixed (h : ∀ t s, M.step (e.state n) t = some s → s = e.state n) (k : ℕ) :
    e.state (n + k) = e.state n := by
  induction k with
  | zero => rfl
  | succ k ih =>
    rw [← Nat.add_assoc]
    cases hstep : M.step (e.state (n + k)) (e.agent (n + k)) with
    | none => rw [next_of_none hstep, ih]
    | some s =>
      rw [next_of_some hstep]
      rw [ih] at hstep
      exact h _ _ hstep

/-- Whenever `P` holds, `Q` holds then or later. -/
def LeadsTo (e : M.Execution) (P Q : σ → Prop) : Prop :=
  ∀ n, P (e.state n) → ∃ m, n ≤ m ∧ Q (e.state m)

theorem LeadsTo.of_imp (h : ∀ s, M.Reachable s → P s → Q s) : e.LeadsTo P Q :=
  fun n hP => ⟨n, le_rfl, h _ (e.reachable n) hP⟩

theorem LeadsTo.trans (h : e.LeadsTo P Q) (h' : e.LeadsTo Q R) : e.LeadsTo P R := by
  intro n hP
  obtain ⟨m, hnm, hQ⟩ := h n hP
  obtain ⟨k, hmk, hR⟩ := h' m hQ
  exact ⟨k, hnm.trans hmk, hR⟩

theorem LeadsTo.or (h : e.LeadsTo P R) (h' : e.LeadsTo Q R) :
    e.LeadsTo (fun s => P s ∨ Q s) R := by
  rintro n (hP | hQ)
  · exact h n hP
  · exact h' n hQ

/-- A case distinction at the beginning. -/
theorem LeadsTo.cases (h : e.LeadsTo (fun s => P s ∧ P' s) Q)
    (h' : e.LeadsTo (fun s => P s ∧ ¬ P' s) Q) : e.LeadsTo P Q := by
  intro n hP
  by_cases hP' : P' (e.state n)
  · exact h n ⟨hP, hP'⟩
  · exact h' n ⟨hP, hP'⟩

/-- What the steps keep until `B` holds is there at any later time, or `B` has come before. -/
theorem keeps (hkeep : ∀ s t s', M.Reachable s → R s → ¬ B s → M.step s t = some s' → R s' ∨ B s')
    (hR : R (e.state n)) (k : ℕ) : (∃ j, B (e.state (n + j))) ∨ R (e.state (n + k)) := by
  induction k with
  | zero => exact .inr hR
  | succ k ih =>
    rcases ih with hB | hRk
    · exact .inl hB
    · by_cases hB : B (e.state (n + k))
      · exact .inl ⟨k, hB⟩
      · rw [← Nat.add_assoc]
        cases h : M.step (e.state (n + k)) (e.agent (n + k)) with
        | none =>
          rw [next_of_none h]
          exact .inr hRk
        | some s =>
          have hs : e.state (n + k + 1) = s := next_of_some h
          rcases hkeep _ _ _ (e.reachable _) hRk hB h with hRs | hBs
          · exact .inr (hs ▸ hRs)
          · exact .inl ⟨k + 1, hs ▸ hBs⟩

/-- **Progress and safety together**: what the steps keep until `B` is still there at the end of
the way from `P` to `Q`, unless `B` has come. -/
theorem LeadsTo.unless (h : e.LeadsTo P Q)
    (hkeep : ∀ s t s', M.Reachable s → R s → ¬ B s → M.step s t = some s' → R s' ∨ B s') :
    e.LeadsTo (fun s => P s ∧ R s) (fun s => Q s ∧ R s ∨ B s) := by
  rintro n ⟨hP, hR⟩
  obtain ⟨m, hnm, hQ⟩ := h n hP
  obtain ⟨k, rfl⟩ := Nat.exists_eq_add_of_le hnm
  rcases keeps hkeep hR k with ⟨j, hB⟩ | hRk
  · exact ⟨n + j, Nat.le_add_right n j, .inr hB⟩
  · exact ⟨n + k, hnm, .inl ⟨hQ, hRk⟩⟩

/-- Every agent has a turn again and again, or is found at rest. -/
def Fair (e : M.Execution) (rests : σ → τ → Prop) : Prop :=
  ∀ t n, ∃ m, n ≤ m ∧ (e.agent m = t ∨ rests (e.state m) t)

section Helpful

variable {α : Type*} [Preorder α] {μ : σ → α} {H : σ → τ → Prop} {t : τ}

/-- As long as the measure has not come down, a helpful agent is helpful. -/
theorem stays (hhelps : M.Helps P Q μ H) (hP : P (e.state n)) (ht : H (e.state n) t)
    (k : ℕ) :
    (∃ j, Q (e.state (n + j)) ∨ P (e.state (n + j)) ∧ μ (e.state (n + j)) < μ (e.state n)) ∨
      P (e.state (n + k)) ∧ μ (e.state (n + k)) = μ (e.state n) ∧ H (e.state (n + k)) t := by
  induction k with
  | zero => exact .inr ⟨hP, rfl, ht⟩
  | succ k ih =>
    rcases ih with hdown | ⟨hPk, hμ, htk⟩
    · exact .inl hdown
    · by_cases hQ : Q (e.state (n + k))
      · exact .inl ⟨k, .inl hQ⟩
      · cases h : M.step (e.state (n + k)) (e.agent (n + k)) with
        | none =>
          rw [← Nat.add_assoc, next_of_none h]
          exact .inr ⟨hPk, hμ, htk⟩
        | some s =>
          have hs : e.state (n + (k + 1)) = s := next_of_some h
          rcases hhelps _ t _ _ (e.reachable _) hPk hQ htk h with
            hQs | ⟨hPs, hlt | ⟨heq, -, hts⟩⟩
          · exact .inl ⟨k + 1, .inl (hs ▸ hQs)⟩
          · exact .inl ⟨k + 1, .inr ⟨hs ▸ hPs, hs ▸ hμ ▸ hlt⟩⟩
          · rw [hs]
            exact .inr ⟨hPs, heq.trans hμ, hts⟩

/-- **The rule of the helpful agent.** -/
theorem Fair.leadsTo [WellFoundedLT α] (hfair : e.Fair rests) (hhelps : M.Helps P Q μ H)
    (hexists : ∀ s, M.Reachable s → P s → ¬ Q s → ∃ t, H s t)
    (hmoves : ∀ s t, M.Reachable s → P s → ¬ Q s → H s t →
      M.step s t ≠ none ∧ ¬ rests s t) : e.LeadsTo P Q := by
  intro n
  induction hμ : μ (e.state n) using WellFoundedLT.induction generalizing n with
  | _ a ih =>
    subst hμ
    intro hP
    -- a lower measure, or `Q`, at some later time is all it takes
    have hlater : (∃ j, Q (e.state (n + j)) ∨
        P (e.state (n + j)) ∧ μ (e.state (n + j)) < μ (e.state n)) →
        ∃ m, n ≤ m ∧ Q (e.state m) := by
      rintro ⟨j, hQ | ⟨hPj, hlt⟩⟩
      · exact ⟨n + j, Nat.le_add_right n j, hQ⟩
      · obtain ⟨m, hm, hQ⟩ := ih _ hlt (n + j) rfl hPj
        exact ⟨m, (Nat.le_add_right n j).trans hm, hQ⟩
    by_cases hQn : Q (e.state n)
    · exact ⟨n, le_rfl, hQn⟩
    · obtain ⟨t, ht⟩ := hexists _ (e.reachable n) hP hQn
      obtain ⟨m, hnm, hturn⟩ := hfair t n
      obtain ⟨k, rfl⟩ := Nat.exists_eq_add_of_le hnm
      rcases stays hhelps hP ht k with hdown | ⟨hPk, hμk, htk⟩
      · exact hlater hdown
      · by_cases hQ : Q (e.state (n + k))
        · exact ⟨n + k, hnm, hQ⟩
        · obtain ⟨hstep, hrest⟩ := hmoves _ _ (e.reachable _) hPk hQ htk
          have hagent := hturn.resolve_right hrest
          obtain ⟨s, hs⟩ := Option.ne_none_iff_exists'.mp hstep
          have hnext : e.state (n + k + 1) = s := next_of_some (by rw [hagent, hs])
          rcases hhelps _ _ _ _ (e.reachable _) hPk hQ htk hs with
            hQs | ⟨hPs, hlt | ⟨-, hne, -⟩⟩
          · exact hlater ⟨k + 1, .inl (hnext ▸ hQs)⟩
          · exact hlater ⟨k + 1, .inr ⟨hnext ▸ hPs, hnext ▸ hμk ▸ hlt⟩⟩
          · exact absurd rfl hne

end Helpful

/-- If every step brings the measure down, and some agent can move as long as `Q` does not hold,
then it comes to `Q`. -/
theorem Fair.leadsTo_of_decreasing {μ : σ → ℕ} (hfair : e.Fair rests)
    (hstep : ∀ s t s', M.Reachable s → P s → M.step s t = some s' → P s' ∧ μ s' < μ s)
    (henabled : ∀ s, M.Reachable s → P s → ¬ Q s → ∃ t, M.step s t ≠ none ∧ ¬ rests s t) :
    e.LeadsTo P Q := by
  refine hfair.leadsTo (μ := μ) (H := fun s t => M.step s t ≠ none ∧ ¬ rests s t) ?_
    henabled fun _ _ _ _ _ ht => ht
  intro s t u s' hr hs _ _ h
  obtain ⟨hP', hlt⟩ := hstep s u s' hr hs h
  exact .inr ⟨hP', .inl hlt⟩

/-- **The rule of the weights**: if no step raises a weight, and every participant with a weight
can bring it down, all weights go to zero. -/
theorem Fair.leadsTo_of_weights {ι : Type*} [Fintype ι] {w : σ → ι → ℕ} (hfair : e.Fair rests)
    (agent : ι → τ)
    (hstep : ∀ s t s', M.Reachable s → P s → ¬ Q s → M.step s t = some s' → Q s' ∨ P s' ∧
      ∀ i, w s' i ≤ w s i ∧ (t = agent i → 0 < w s i → w s' i < w s i))
    (hmoves : ∀ s i, M.Reachable s → P s → ¬ Q s → 0 < w s i →
      M.step s (agent i) ≠ none ∧ ¬ rests s (agent i)) :
    e.LeadsTo P fun s => Q s ∨ P s ∧ ∀ i, w s i = 0 := by
  refine hfair.leadsTo (μ := fun s => ∑ i, w s i)
    (H := fun s t => ∃ i, t = agent i ∧ 0 < w s i) ?_ ?_ ?_
  · rintro s t u s' hr hP hQ ⟨i, rfl, hi⟩ h
    rcases hstep s u s' hr hP (fun hQs => hQ (.inl hQs)) h with hQ' | ⟨hP', hw⟩
    · exact .inl (.inl hQ')
    refine .inr ⟨hP', ?_⟩
    obtain hlt | heq := (Finset.sum_le_sum fun j (_ : j ∈ Finset.univ) => (hw j).1).lt_or_eq
    · exact .inl hlt
    · -- the weights are the same, so that the mover has none
      have hsame := fun j =>
        (Finset.sum_eq_sum_iff_of_le fun j _ => (hw j).1).mp heq j (Finset.mem_univ j)
      refine .inr ⟨heq, ?_, i, rfl, by rwa [hsame i]⟩
      rintro rfl
      exact absurd (hsame i) ((hw i).2 rfl hi).ne
  · intro s _ hP hQ
    by_contra hnone
    refine hQ (.inr ⟨hP, fun i => ?_⟩)
    by_contra hi
    exact hnone ⟨agent i, i, rfl, Nat.pos_of_ne_zero hi⟩
  · rintro s t hr hP hQ ⟨i, rfl, hi⟩
    exact hmoves s i hr hP (fun hQs => hQ (.inl hQs)) hi

end Execution

/-! ### Schedules -/

/-- The states of a schedule. -/
def states (M : Machine σ τ) (s : σ) (agent : ℕ → τ) : ℕ → σ
  | 0 => s
  | n + 1 => (M.step (M.states s agent n) (agent n)).getD (M.states s agent n)

/-- The execution of a schedule. -/
def execution {s : σ} (hs : M.init s) (agent : ℕ → τ) : M.Execution where
  state := M.states s agent
  agent := agent
  init := hs
  next _ := rfl

/-- The agents of a list in turn, for ever. -/
def cycle (agents : List τ) (h : 0 < agents.length) (n : ℕ) : τ :=
  agents.get ⟨n % agents.length, Nat.mod_lt n h⟩

/-- It is fair to give all agents their turns in a cycle. -/
theorem fair_cycle {s : σ} {hs : M.init s} {agents : List τ} {h : 0 < agents.length}
    (hall : ∀ t, t ∈ agents) {rests : σ → τ → Prop} :
    (execution hs (cycle agents h)).Fair rests := by
  intro t n
  obtain ⟨i, rfl⟩ := List.mem_iff_get.mp (hall t)
  refine ⟨agents.length * n + i, ?_, .inl ?_⟩
  · exact (Nat.le_mul_of_pos_left n h).trans (Nat.le_add_right _ _)
  · show agents.get _ = agents.get i
    congr 1
    exact Fin.ext ((Nat.mul_add_mod _ _ _).trans (Nat.mod_eq_of_lt i.isLt))

/-- The agents of a sequence, each again and again. -/
def dovetail (f : ℕ → τ) (n : ℕ) : τ := f n.unpair.1

theorem fair_dovetail {s : σ} {hs : M.init s} {f : ℕ → τ} (hall : ∀ t, ∃ i, f i = t)
    {rests : σ → τ → Prop} : (execution hs (dovetail f)).Fair rests := by
  intro t n
  obtain ⟨i, rfl⟩ := hall t
  refine ⟨Nat.pair i n, Nat.right_le_pair i n, .inl ?_⟩
  show f (Nat.pair i n).unpair.1 = f i
  rw [Nat.unpair_pair]

/-- A stem, and then a loop for ever. -/
def lasso (stem loop : List τ) (h : 0 < loop.length) (n : ℕ) : τ :=
  if hn : n < stem.length then stem.get ⟨n, hn⟩ else cycle loop h (n - stem.length)

section Lasso

variable {s u : σ} {stem loop : List τ} {h : 0 < loop.length}

/-- A schedule that gives the turns of a list leads where the list does. -/
theorem states_run {agent : ℕ → τ} {v : σ} {ts : List τ} {n : ℕ}
    (hrun : M.run (M.states s agent n) ts = some v)
    (hagent : ∀ i (hi : i < ts.length), agent (n + i) = ts.get ⟨i, hi⟩) :
    M.states s agent (n + ts.length) = v := by
  induction ts generalizing n with
  | nil => exact Option.some.inj hrun
  | cons t ts ih =>
    obtain ⟨w, hw, hrest⟩ := run_cons_eq_some.mp hrun
    have hnow : agent n = t := hagent 0 (Nat.succ_pos _)
    have hnext : M.states s agent (n + 1) = w := by
      rw [states, hnow, hw, Option.getD_some]
    rw [List.length_cons, Nat.add_comm ts.length, ← Nat.add_assoc]
    refine ih (hnext ▸ hrest) fun i hi => ?_
    rw [Nat.add_assoc, Nat.add_comm 1 i]
    exact hagent (i + 1) (Nat.succ_lt_succ hi)

/-- In a round the turns are those of the loop. -/
theorem lasso_round (q : ℕ) {i : ℕ} (hi : i < loop.length) :
    lasso stem loop h (stem.length + loop.length * q + i) = loop.get ⟨i, hi⟩ := by
  rw [Nat.add_assoc, lasso, dif_neg (by omega), Nat.add_sub_cancel_left, cycle]
  congr 1
  exact Fin.ext ((Nat.mul_add_mod _ _ _).trans (Nat.mod_eq_of_lt hi))

/-- At the end of each round the state is the same. -/
theorem states_lasso_rounds (hstem : M.run s stem = some u) (hloop : M.run u loop = some u)
    (q : ℕ) : M.states s (lasso stem loop h) (stem.length + loop.length * q) = u := by
  induction q with
  | zero =>
    have hstates : M.states s (lasso stem loop h) (0 + stem.length) = u :=
      states_run hstem fun i hi => by rw [Nat.zero_add, lasso, dif_pos hi]
    rwa [Nat.zero_add] at hstates
  | succ q ih =>
    rw [Nat.mul_succ, ← Nat.add_assoc]
    exact states_run (by rwa [ih]) fun i hi => lasso_round q hi

/-- After the stem every state is one of the loop. -/
theorem states_lasso (hstem : M.run s stem = some u) (hloop : M.run u loop = some u) (n : ℕ) :
    ∃ ts us, ts ++ us = loop ∧
      M.run u ts = some (M.states s (lasso stem loop h) (stem.length + n)) := by
  have hlt := Nat.mod_lt n h
  have hsplit := List.take_append_drop (n % loop.length) loop
  refine ⟨_, _, hsplit, ?_⟩
  obtain ⟨v, hv, -⟩ := run_append_eq_some.mp (hsplit.symm ▸ hloop)
  have hround := states_lasso_rounds (h := h) hstem hloop (n / loop.length)
  have hend := states_run (hround.symm ▸ hv) fun i hi => by
    rw [List.length_take] at hi
    rw [lasso_round _ (hi.trans_le (Nat.min_le_right _ _)), List.get_eq_getElem,
      List.get_eq_getElem, List.getElem_take]
  rw [List.length_take, Nat.min_eq_left hlt.le, Nat.add_assoc, Nat.div_add_mod] at hend
  rw [hv, hend]

/-- It is fair to those who are in the loop, or at rest in all states from some moment on. -/
theorem fair_lasso {hs : M.init s} {rests : σ → τ → Prop}
    (hall : ∀ t, t ∈ loop ∨ ∀ n, rests (M.states s (lasso stem loop h) (stem.length + n)) t) :
    (execution hs (lasso stem loop h)).Fair rests := by
  intro t n
  rcases hall t with hmem | hrest
  · obtain ⟨i, rfl⟩ := List.mem_iff_get.mp hmem
    refine ⟨stem.length + loop.length * n + i, ?_, .inl (lasso_round n i.isLt)⟩
    have hle := Nat.le_mul_of_pos_left n h
    omega
  · exact ⟨stem.length + n, Nat.le_add_left n _, .inr (hrest n)⟩

end Lasso

end Machine
