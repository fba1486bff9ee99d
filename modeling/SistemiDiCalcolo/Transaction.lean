/-
The machine `int` and the transactions of the producer/consumer programs.

`performRandomTransaction` is the generator that the programs of Lab03 and
Lab05 share; its argument is what `rand()` returned.  A transaction is a
non-zero amount between `-MAX_TRANSACTION` and `MAX_TRANSACTION`
(`performRandomTransaction_ne_zero`, `performRandomTransaction_bounds`).
-/
import Mathlib.Data.BitVec

/-- The C type `int`: 32 bits, with arithmetic modulo `2 ^ 32`. -/
abbrev CInt := BitVec 32

/-- A small number is not changed by its representation as an `int`. -/
theorem toInt_ofNat_of_lt {k : ℕ} (hk : k < 2 ^ 31) : (BitVec.ofNat 32 k : CInt).toInt = k := by
  rw [BitVec.toInt_ofNat', Int.bmod_def]
  split_ifs <;> omega

def MAX_TRANSACTION : ℤ := 1000

/-- The branch on `amount`, shared by every version of the generator. -/
def transactionOf (amount : ℤ) : ℤ :=
  if amount ≥ MAX_TRANSACTION then MAX_TRANSACTION - (amount + 1) else amount + 1

/-- `amount = rand() % (2 * MAX_TRANSACTION)`, then the branch. -/
def performRandomTransaction (rand : ℕ) : CInt :=
  BitVec.ofInt 32 (transactionOf (rand % (2 * MAX_TRANSACTION)))

theorem transactionOf_bounds {amount : ℤ} (h₀ : 0 ≤ amount) (h₁ : amount < 2 * MAX_TRANSACTION) :
    -MAX_TRANSACTION ≤ transactionOf amount ∧ transactionOf amount ≤ MAX_TRANSACTION ∧
      transactionOf amount ≠ 0 := by
  simp only [transactionOf, MAX_TRANSACTION] at *
  split_ifs <;> omega

theorem performRandomTransaction_bounds (rand : ℕ) :
    -MAX_TRANSACTION ≤ (performRandomTransaction rand).toInt ∧
      (performRandomTransaction rand).toInt ≤ MAX_TRANSACTION ∧
      (performRandomTransaction rand).toInt ≠ 0 := by
  have h : -MAX_TRANSACTION ≤ transactionOf (rand % (2 * MAX_TRANSACTION)) ∧ _ :=
    transactionOf_bounds (Int.emod_nonneg _ (by decide)) (Int.emod_lt_of_pos _ (by decide))
  rw [performRandomTransaction, BitVec.toInt_ofInt_eq_self (by decide)]
  · exact h
  · simp only [MAX_TRANSACTION] at *
    omega
  · simp only [MAX_TRANSACTION] at *
    omega

/-- The generator never produces a zero. -/
theorem performRandomTransaction_ne_zero (rand : ℕ) : performRandomTransaction rand ≠ 0 := by
  intro h
  have := (performRandomTransaction_bounds rand).2.2
  rw [h] at this
  exact this rfl
