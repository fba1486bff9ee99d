/-
Counting over the agents of a machine.

`tally f g` adds up the weight `f` of the local states `g i` of finitely many
agents.  One agent's move changes one local state, so the counting facts of a
step follow from `tally_update`; a tally of zero-one weights that is at most
one singles out its agent (`tally_sole`, `tally_eq_of_sole`).
-/
import Mathlib.Algebra.BigOperators.Group.Finset.Piecewise
import Mathlib.Algebra.BigOperators.Group.Finset.Basic
import Mathlib.Algebra.BigOperators.Ring.Finset
import Mathlib.Algebra.Group.Action.Defs
import Mathlib.Algebra.Order.BigOperators.Group.Finset
import Mathlib.Data.Fintype.BigOperators

open scoped BigOperators

section Tally

variable {ι β M : Type*} [Fintype ι] [AddCommMonoid M]

/-- The total weight of the local states of all agents. -/
def tally (f : β → M) (g : ι → β) : M := ∑ i, f (g i)

theorem tally_const (f : β → M) (b : β) :
    tally f (fun _ : ι => b) = Fintype.card ι • f b := by
  rw [tally, Finset.sum_const, Finset.card_univ]

/-- The total after one agent's move, against the total before it. -/
theorem tally_update [DecidableEq ι] (f : β → M) (g : ι → β) (i : ι) (b : β) :
    tally f (Function.update g i b) + f (g i) = tally f g + f b := by
  have hrest : ∑ j ∈ Finset.univ.erase i, f (Function.update g i b j)
      = ∑ j ∈ Finset.univ.erase i, f (g j) :=
    Finset.sum_congr rfl fun j hj => by
      rw [Function.update_of_ne (Finset.ne_of_mem_erase hj)]
  rw [tally, tally, ← Finset.add_sum_erase _ _ (Finset.mem_univ i), hrest,
    ← Finset.add_sum_erase Finset.univ (fun j => f (g j)) (Finset.mem_univ i),
    Function.update_self]
  ac_rfl

end Tally

section Sole

variable {ι β : Type*} [Fintype ι] {f h : β → ℕ} {g : ι → β}

theorem exists_ne_zero_of_tally (h : tally f g ≠ 0) : ∃ i, f (g i) ≠ 0 := by
  by_contra hnone
  exact h (Finset.sum_eq_zero fun i _ => not_not.mp fun hi => hnone ⟨i, hi⟩)

theorem le_tally (f : β → ℕ) (g : ι → β) (i : ι) : f (g i) ≤ tally f g :=
  Finset.single_le_sum (f := fun j => f (g j)) (fun _ _ => Nat.zero_le _) (Finset.mem_univ i)

theorem tally_le_card_mul {b : ℕ} (h : ∀ i, f (g i) ≤ b) : tally f g ≤ Fintype.card ι * b := by
  rw [← smul_eq_mul, ← Finset.card_univ]
  exact Finset.sum_le_card_nsmul _ _ b fun i _ => h i

/-- The greatest possible total is reached only if every agent reaches its bound. -/
theorem eq_of_card_mul_le_tally {b : ℕ} (h : ∀ i, f (g i) ≤ b)
    (htotal : Fintype.card ι * b ≤ tally f g) (i : ι) : f (g i) = b := by
  by_contra hne
  have hlt : ∑ j, f (g j) < ∑ _j : ι, b :=
    Finset.sum_lt_sum (fun j _ => h j) ⟨i, Finset.mem_univ i, lt_of_le_of_ne (h i) hne⟩
  rw [Finset.sum_const, Finset.card_univ, smul_eq_mul] at hlt
  exact absurd htotal (Nat.not_le.mpr hlt)

theorem tally_eq_zero : tally f g = 0 ↔ ∀ i, f (g i) = 0 := by
  rw [tally, Finset.sum_eq_zero_iff]
  exact ⟨fun hz i => hz i (Finset.mem_univ i), fun hz i _ => hz i⟩

/-- A total below the number of agents leaves one that does not count. -/
theorem exists_eq_zero_of_tally_lt (h : tally f g < Fintype.card ι) : ∃ i, f (g i) = 0 := by
  by_contra hne
  have hpos : ∀ i, 1 ≤ f (g i) := fun i => Nat.one_le_iff_ne_zero.mpr fun hz => hne ⟨i, hz⟩
  have hle : ∑ _i : ι, 1 ≤ ∑ i, f (g i) := Finset.sum_le_sum fun i _ => hpos i
  rw [← Finset.card_eq_sum_ones, Finset.card_univ] at hle
  exact absurd h (Nat.not_lt.mpr hle)

/-- Zero-one weights that add up to the number of agents are all one. -/
theorem eq_one_of_card_le_tally (hf : ∀ b, f b ≤ 1) (h : Fintype.card ι ≤ tally f g) (i : ι) :
    f (g i) = 1 :=
  eq_of_card_mul_le_tally (fun j => hf (g j)) (by rwa [Nat.mul_one]) i

/-- Under a total of at most one, two agents that both count are the same. -/
theorem tally_sole [DecidableEq ι] (hle : tally f g ≤ 1) {i j : ι} (hi : f (g i) = 1)
    (hj : f (g j) = 1) : i = j := by
  by_contra hne
  have hsub : ∑ k ∈ {i, j}, f (g k) ≤ tally f g :=
    Finset.sum_le_sum_of_subset (Finset.subset_univ _)
  rw [Finset.sum_pair hne] at hsub
  omega

/-- A total of one is the weight of one agent. -/
theorem exists_sole_of_tally_eq_one [DecidableEq ι] (h : tally f g = 1) :
    ∃ i, f (g i) = 1 ∧ ∀ j, j ≠ i → f (g j) = 0 := by
  have hne : tally f g ≠ 0 := by omega
  obtain ⟨i, hi⟩ := not_forall.mp fun hz => hne (tally_eq_zero.mpr hz)
  have hle := le_tally f g i
  have hone : f (g i) = 1 := by omega
  refine ⟨i, hone, fun j hj => ?_⟩
  by_contra hj'
  have hlej := le_tally f g j
  exact hj (tally_sole (by omega) (by omega) hone)

/-- If the agent `i` is the only one that counts under `h`, then it is the only
one that counts under a weight `f` that is 0 where `h` is. -/
theorem tally_eq_of_sole [DecidableEq ι] (hf : ∀ b, h b = 0 → f b = 0) (hle : tally h g ≤ 1)
    {i : ι} (hi : h (g i) = 1) : tally f g = f (g i) := by
  rw [tally]
  refine Finset.sum_eq_single i (fun j _ hj => ?_) (fun hn => absurd (Finset.mem_univ i) hn)
  by_contra hne
  have hhj := le_tally h g j
  have hpos : h (g j) ≠ 0 := fun hz => hne (hf _ hz)
  exact hj (tally_sole hle (by omega) hi)

end Sole
