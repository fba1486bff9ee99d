/-
Processes that exit at the first call that fails.

A process makes calls on something it shares with others.  Each call is checked: if it fails the
process exits, and what its earlier calls have done stays.  A call fails because it has to, or
because the process has no successful calls `left`; so this number says where a process ends.

* `look`, `change` — a checked call that finds something out, and one that changes what is shared;
* `outcome_look`, `outcome_change` — as long as successful calls are left, the calls succeed;
* `Leaves` — what a process leaves behind, at its end or where it exits, wherever that is; one
  rule for each way of putting calls together.
-/
import Mathlib.Control.Monad.Basic
import Mathlib.Tactic.Common

/-- A process: how many of its calls may still succeed, and what it shares. -/
structure Proc (σ : Type) where
  left : ℕ
  shared : σ

/-- A program of checked calls. -/
abbrev Checked (σ α : Type) := OptionT (StateM (Proc σ)) α

namespace Checked

variable {σ α β : Type} {s s' : σ} {k k' : ℕ} {a : α} {x : Checked σ α} {f : α → Checked σ β}

/-- The call `act`, where `none` is a call that fails. -/
def call (act : σ → Option (α × σ)) : Checked σ α := OptionT.mk fun p =>
  match p.left with
  | 0 => (none, p)
  | k + 1 =>
    match act p.shared with
    | none => (none, p)
    | some (a, s) => (some a, ⟨k, s⟩)

/-- A call that leaves what is shared alone. -/
def look (act : σ → Option α) : Checked σ α := call fun s => (act s).map fun a => (a, s)

/-- A call that changes what is shared. -/
def change (act : σ → σ) : Checked σ Unit := call fun s => some ((), act s)

/-- What becomes of a process with `k` successful calls: its result, unless it exits before,
and the process where it stops. -/
def outcome (x : Checked σ α) (k : ℕ) (s : σ) : Option α × Proc σ := x.run.run ⟨k, s⟩

/-! ### Processes that get to their end -/

theorem outcome_bind : outcome (x >>= f) k s =
    match outcome x k s with
    | (some a, p) => outcome (f a) p.left p.shared
    | (none, p) => (none, p) := by
  cases hx : outcome x k s with
  | mk result p =>
    rw [outcome] at hx
    simp only [outcome, OptionT.run_bind, Option.elimM, StateT.run_bind, hx]
    cases result with
    | none => rfl
    | some a => rfl

theorem outcome_look {act : σ → Option α} (h : act s = some a) :
    outcome (look act >>= f) (k + 1) s = outcome (f a) k s := by
  have hcall : outcome (look act) (k + 1) s = (some a, ⟨k, s⟩) := by
    show (match (act s).map fun a => (a, s) with
      | none => ((none : Option α), (⟨k + 1, s⟩ : Proc σ))
      | some (a, s) => (some a, ⟨k, s⟩)) = _
    rw [h, Option.map_some]
  rw [outcome_bind, hcall]

theorem outcome_change {act : σ → σ} {f : Unit → Checked σ β} :
    outcome (change act >>= f) (k + 1) s = outcome (f ()) k (act s) := by
  rw [outcome_bind]
  rfl

/-! ### Processes that may exit -/

/-- From `s`, a process that gets to its end with the result `a` leaves `Q a`, and one that exits
before leaves `C`, whatever the number of successful calls. -/
def Leaves (x : Checked σ α) (s : σ) (Q : α → σ → Prop) (C : σ → Prop) : Prop :=
  ∀ k, match outcome x k s with
    | (some a, p) => Q a p.shared
    | (none, p) => C p.shared

variable {Q : α → σ → Prop} {R : β → σ → Prop} {C : σ → Prop}

theorem Leaves.mono {C' : σ → Prop} (h : Leaves x s Q C) (hC : ∀ s, C s → C' s) :
    Leaves x s Q C' := by
  intro k
  have hk := h k
  cases hx : outcome x k s with
  | mk result p =>
    rw [hx] at hk
    cases result with
    | none => exact hC _ hk
    | some a => exact hk

theorem leaves_pure (h : Q a s) : Leaves (pure a) s Q C := fun _ => h

theorem leaves_bind (hx : Leaves x s Q C) (hf : ∀ a s', Q a s' → Leaves (f a) s' R C) :
    Leaves (x >>= f) s R C := by
  intro k
  have hxk := hx k
  rw [outcome_bind]
  cases h : outcome x k s with
  | mk result p =>
    rw [h] at hxk
    cases result with
    | none => exact hxk
    | some a => exact hf a p.shared hxk p.left

/-- A call that fails leaves what was there before. -/
theorem leaves_call {act : σ → Option (α × σ)} (hC : C s)
    (hact : ∀ a s', act s = some (a, s') → Q a s') : Leaves (call act) s Q C := by
  intro k
  cases k with
  | zero => exact hC
  | succ k =>
    show match (match act s with
      | none => ((none : Option α), (⟨k + 1, s⟩ : Proc σ))
      | some (a, s) => (some a, ⟨k, s⟩)) with
      | (some a, p) => Q a p.shared
      | (none, p) => C p.shared
    cases h : act s with
    | none => exact hC
    | some result => exact hact result.1 result.2 h

theorem leaves_look {act : σ → Option α} (hC : C s)
    (hf : ∀ a, act s = some a → Leaves (f a) s R C) : Leaves (look act >>= f) s R C := by
  refine leaves_bind (Q := fun a s' => act s = some a ∧ s' = s) (leaves_call hC ?_) ?_
  · intro a s' h
    obtain ⟨b, hb, hpair⟩ := Option.map_eq_some_iff.mp h
    obtain ⟨rfl, rfl⟩ := Prod.mk.inj hpair
    exact ⟨hb, rfl⟩
  · rintro a s' ⟨ha, rfl⟩
    exact hf a ha

theorem leaves_change {act : σ → σ} {f : Unit → Checked σ β} (hC : C s)
    (hf : Leaves (f ()) (act s) R C) : Leaves (change act >>= f) s R C := by
  refine leaves_bind (Q := fun _ s' => s' = act s) (leaves_call hC ?_) ?_
  · intro _ s' h
    exact (Prod.mk.inj (Option.some.inj h)).2.symm
  · rintro ⟨⟩ s' rfl
    exact hf

/-- A condition that both ends meet is met by what is left. -/
theorem Leaves.shared (h : Leaves x s Q C) (hQ : ∀ a s', Q a s' → C s') (k : ℕ) :
    C (outcome x k s).2.shared := by
  have hk := h k
  cases hx : outcome x k s with
  | mk result p =>
    rw [hx] at hk
    cases result with
    | none => exact hk
    | some a => exact hQ a p.shared hk

end Checked
