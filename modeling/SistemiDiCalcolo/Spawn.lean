/-
Threads that a process creates one after another, and joins one after another.

* `Spawned absent j` — the threads below `j` have been created, the others have not;
* `JoinedBelow done j` — the threads below `j` have come to their end;
* `update_stage` — the threads that one after another get to the same point.
-/
import Mathlib.Data.Fintype.Basic
import Mathlib.Tactic.Common

open Function (update)

variable {n : ℕ} {β : Type*} {absent done : β} {thread : Fin n → β} {j : ℕ} {k : Fin n} {b : β}

/-- Exactly the threads below `j` have been created. -/
def Spawned (absent : β) (j : ℕ) (thread : Fin n → β) : Prop :=
  ∀ k, thread k = absent ↔ j ≤ k.val

theorem spawned_zero (absent : β) : Spawned absent 0 (fun _ : Fin n => absent) :=
  fun k => ⟨fun _ => Nat.zero_le k, fun _ => rfl⟩

/-- The next thread is created. -/
theorem Spawned.create (h : Spawned absent j thread) (hj : j < n) (hb : b ≠ absent) :
    Spawned absent (j + 1) (update thread ⟨j, hj⟩ b) := by
  intro k
  by_cases hk : k = ⟨j, hj⟩
  · subst hk
    rw [Function.update_self]
    exact ⟨fun heq => absurd heq hb, fun hle => absurd hle (Nat.not_succ_le_self j)⟩
  · have hne : k.val ≠ j := fun heq => hk (Fin.ext heq)
    rw [Function.update_of_ne hk, h k]
    omega

/-- A thread that has been created moves. -/
theorem Spawned.move (h : Spawned absent j thread) (hk : thread k ≠ absent) (hb : b ≠ absent) :
    Spawned absent j (update thread k b) := by
  intro l
  by_cases hl : l = k
  · subst hl
    rw [Function.update_self, ← h l]
    exact ⟨fun heq => absurd heq hb, fun heq => absurd heq hk⟩
  · rw [Function.update_of_ne hl]
    exact h l

theorem Spawned.eq_absent (h : Spawned absent j thread) (hj : j < n) : thread ⟨j, hj⟩ = absent :=
  (h ⟨j, hj⟩).mpr le_rfl

/-- Once all have been created, none is absent. -/
theorem Spawned.ne_absent (h : Spawned absent j thread) (hj : n ≤ j) (k : Fin n) :
    thread k ≠ absent := by
  intro heq
  have := (h k).mp heq
  have := k.isLt
  omega

theorem Spawned.all (h : Spawned absent j thread) (hj : n ≤ j) : Spawned absent n thread := by
  intro k
  exact ⟨fun heq => absurd heq (h.ne_absent hj k), fun hle => absurd k.isLt (Nat.not_lt.mpr hle)⟩

/-- The threads below `j` have come to their end. -/
def JoinedBelow (done : β) (j : ℕ) (thread : Fin n → β) : Prop :=
  ∀ k : Fin n, k.val < j → thread k = done

theorem joinedBelow_zero (done : β) (thread : Fin n → β) : JoinedBelow done 0 thread :=
  fun _ hk => absurd hk (Nat.not_lt_zero _)

/-- `pthread_join` returns the next thread. -/
theorem JoinedBelow.join (h : JoinedBelow done j thread) (hj : j < n)
    (hdone : thread ⟨j, hj⟩ = done) : JoinedBelow done (j + 1) thread := by
  intro k hk
  rcases Nat.lt_succ_iff_lt_or_eq.mp hk with hlt | heq
  · exact h k hlt
  · rwa [show k = ⟨j, hj⟩ from Fin.ext heq]

/-- A thread that has not come to its end moves. -/
theorem JoinedBelow.move (h : JoinedBelow done j thread) (hk : thread k ≠ done) :
    JoinedBelow done j (update thread k b) := by
  intro l hl
  have hne : l ≠ k := fun heq => hk (heq ▸ h l hl)
  rw [Function.update_of_ne hne]
  exact h l hl

theorem JoinedBelow.all (h : JoinedBelow done j thread) (hj : n ≤ j) (k : Fin n) :
    thread k = done :=
  h k (k.isLt.trans_le hj)

/-- The threads below `j` have reached `a` one after another; so does the next one. -/
theorem update_stage (a b : β) (hj : j < n) :
    update (fun k : Fin n => if k.val < j then a else b) ⟨j, hj⟩ a
      = fun k => if k.val < j + 1 then a else b := by
  funext k
  by_cases hk : k = ⟨j, hj⟩
  · subst hk
    rw [Function.update_self, if_pos (Nat.lt_succ_self j)]
  · have hne : k.val ≠ j := fun heq => hk (Fin.ext heq)
    have hiff : k.val < j + 1 ↔ k.val < j := by omega
    rw [Function.update_of_ne hk]
    simp only [hiff]
