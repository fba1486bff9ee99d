/-
A parent process that forks its children, waits for each of them and ends.

* `parentStep` — its steps, given the status of the children;
* `Inv` — as long as no child has failed, the parent has forked the first ones, then
  waited for some that have exited, and ends only after all have exited;
* `Inv.ne_notForked_of_stuck`, `Inv.exited_of_stuck` — it goes on until it has to wait
  for a child that is running.
-/
import SistemiDiCalcolo.Tally
import Mathlib.Tactic.Common

open Function (update)

namespace ForkWait

/-- What the parent can tell of a child. -/
inductive Status
  | notForked
  | running
  | exited
  | failed
  deriving DecidableEq, Repr

/-- The loop of `fork`, the loop of `wait`, and the end, with the exit status. -/
inductive Pc
  | forking (i : ℕ)
  | waiting (i : ℕ)
  | closing
  | exited (success : Bool)
  deriving DecidableEq, Repr

/-- The parent of `n` children, with those that `wait` has returned. -/
structure Parent (n : ℕ) where
  pc : Pc
  reaped : Fin n → Bool

variable {n : ℕ}

/-- The parent has not ended: its descriptors are open. -/
def Parent.isOpen (parent : Parent n) : Bool :=
  match parent.pc with
  | .exited _ => false
  | _ => true

def start : Parent n := ⟨.forking 0, fun _ => false⟩

/-- The next step of the parent, with the child it forks; `child` is the one that `wait`
returns.  A child that has failed makes the parent fail. -/
def parentStep (parent : Parent n) (status : Fin n → Status) (child : Option (Fin n)) :
    Option (Parent n × Option (Fin n)) :=
  match parent.pc with
  | .forking i =>
    if h : i < n then some ({ parent with pc := .forking (i + 1) }, some ⟨i, h⟩)
    else some ({ parent with pc := .waiting 0 }, none)
  | .waiting i =>
    if i < n then
      match child with
      | none => none
      | some c =>
        if parent.reaped c then none
        else
          match status c with
          | .exited => some (⟨.waiting (i + 1), update parent.reaped c true⟩, none)
          | .failed => some (⟨.exited false, update parent.reaped c true⟩, none)
          | .notForked | .running => none
    else some ({ parent with pc := .closing }, none)
  | .closing => some ({ parent with pc := .exited true }, none)
  | .exited _ => none

variable {parent parent' : Parent n} {status : Fin n → Status} {child : Option (Fin n)} {c : Fin n}

/-- The children that `wait` has returned. -/
def Parent.numReaped (parent : Parent n) : ℕ := tally Bool.toNat parent.reaped

/-- What the parent knows of its children, none of which has failed. -/
def Inv (parent : Parent n) (status : Fin n → Status) : Prop :=
  match parent.pc with
  | .forking i => i ≤ n ∧ (∀ c, status c = .notForked ↔ i ≤ c) ∧ ∀ c, parent.reaped c = false
  | .waiting i => (∀ c, status c ≠ .notForked) ∧ parent.numReaped = i ∧ i ≤ n ∧
      ∀ c, parent.reaped c = true → status c = .exited
  | .closing | .exited true => ∀ c, status c = .exited
  | .exited false => False

theorem inv_start (hstatus : ∀ c, status c = .notForked) : Inv start status :=
  ⟨Nat.zero_le n, fun c => iff_of_true (hstatus c) (Nat.zero_le c), fun _ => rfl⟩

/-- A running child that goes on or exits leaves the parent what it knows. -/
theorem Inv.of_running (h : Inv parent status) (hc : status c = .running) {new : Status}
    (hnew : new = .running ∨ new = .exited) : Inv parent (update status c new) := by
  have hother : ∀ d, status d = .exited → update status c new d = .exited := by
    intro d hd
    have hne : d ≠ c := by
      rintro rfl
      rw [hc] at hd
      cases hd
    rwa [Function.update_of_ne hne]
  have hforked : ∀ d, update status c new d = .notForked ↔ status d = .notForked := by
    intro d
    by_cases hd : d = c
    · -- the child was running, and still is not `notForked`
      subst hd
      rw [Function.update_self, hc]
      rcases hnew with rfl | rfl <;> decide
    · rw [Function.update_of_ne hd]
  cases hpc : parent.pc with
  | forking i =>
    rw [Inv, hpc] at h ⊢
    exact ⟨h.1, fun d => (hforked d).trans (h.2.1 d), h.2.2⟩
  | waiting i =>
    rw [Inv, hpc] at h ⊢
    exact ⟨fun d hd => h.1 d ((hforked d).mp hd), h.2.1, h.2.2.1,
      fun d hd => hother d (h.2.2.2 d hd)⟩
  | closing =>
    rw [Inv, hpc] at h ⊢
    exact fun d => hother d (h d)
  | exited b =>
    rw [Inv, hpc] at h ⊢
    cases b with
    | false => exact h
    | true => exact fun d => hother d (h d)

/-- The steps of the parent, with the child that is forked. -/
inductive ParentStep (parent : Parent n) (status : Fin n → Status) :
    Parent n → Option (Fin n) → Prop
  | fork (c : Fin n) : parent.pc = .forking c →
      ParentStep parent status { parent with pc := .forking (c + 1) } (some c)
  | forked (i : ℕ) : parent.pc = .forking i → n ≤ i →
      ParentStep parent status { parent with pc := .waiting 0 } none
  | wait (i : ℕ) (c : Fin n) : parent.pc = .waiting i → i < n → parent.reaped c = false →
      status c = .exited →
      ParentStep parent status ⟨.waiting (i + 1), update parent.reaped c true⟩ none
  | fail (i : ℕ) (c : Fin n) : parent.pc = .waiting i → status c = .failed →
      ParentStep parent status ⟨.exited false, update parent.reaped c true⟩ none
  | waited (i : ℕ) : parent.pc = .waiting i → n ≤ i →
      ParentStep parent status { parent with pc := .closing } none
  | close : parent.pc = .closing → ParentStep parent status { parent with pc := .exited true } none

theorem parentStep_cases {new : Option (Fin n)}
    (h : parentStep parent status child = some (parent', new)) :
    ParentStep parent status parent' new := by
  unfold parentStep at h
  cases hpc : parent.pc with
  | forking i =>
    simp only [hpc] at h
    split at h <;> cases h
    · next hi => exact .fork ⟨i, hi⟩ hpc
    · next hi => exact .forked i hpc (Nat.le_of_not_lt hi)
  | waiting i =>
    simp only [hpc] at h
    split at h
    · next hi =>
      cases child with
      | none => cases h
      | some c =>
        simp only at h
        split at h
        · cases h
        · next hc =>
          cases hst : status c with
          | exited =>
            simp only [hst] at h
            cases h
            exact .wait i c hpc hi (Bool.eq_false_of_not_eq_true hc) hst
          | failed =>
            simp only [hst] at h
            cases h
            exact .fail i c hpc hst
          | notForked | running =>
            simp only [hst] at h
            cases h
    · next hi =>
      cases h
      exact .waited i hpc (Nat.le_of_not_lt hi)
  | closing =>
    simp only [hpc] at h
    cases h
    exact .close hpc
  | exited b =>
    simp only [hpc] at h
    cases h

/-- The status of the children after a step of the parent. -/
def forked (status : Fin n → Status) : Option (Fin n) → Fin n → Status
  | none => status
  | some c => update status c .running

/-- The parent keeps what it knows; the child it forks was not there. -/
theorem Inv.step (h : Inv parent status) (hfailed : ∀ c, status c ≠ .failed)
    {new : Option (Fin n)} (hstep : ParentStep parent status parent' new) :
    Inv parent' (forked status new) ∧ ∀ c, new = some c → status c = .notForked := by
  cases hstep with
  | fork c hpc =>
    rw [Inv, hpc] at h
    refine ⟨⟨c.isLt, fun d => ?_, h.2.2⟩, fun d hd => ?_⟩
    · show update status c .running d = .notForked ↔ _
      by_cases hd : d = c
      · subst hd
        rw [Function.update_self]
        exact iff_of_false Status.noConfusion (by omega)
      · rw [Function.update_of_ne hd, h.2.1 d]
        have : d.val ≠ c.val := fun heq => hd (Fin.ext heq)
        omega
    · cases hd
      exact (h.2.1 c).mpr le_rfl
  | forked i hpc hi =>
    rw [Inv, hpc] at h
    refine ⟨⟨fun c hc => ?_, ?_, Nat.zero_le n, fun c hc => ?_⟩, fun c hc => by cases hc⟩
    · have := (h.2.1 c).mp hc
      omega
    · exact tally_eq_zero.mpr fun c => congrArg Bool.toNat (h.2.2 c)
    · exact absurd hc (by rw [h.2.2 c]; decide)
  | wait i c hpc hi hc hst =>
    rw [Inv, hpc] at h
    refine ⟨⟨h.1, ?_, hi, fun d hd => ?_⟩, fun d hd => by cases hd⟩
    · -- one more child has been reaped
      have htally := tally_update Bool.toNat parent.reaped c true
      have hreaped : tally Bool.toNat parent.reaped = i := h.2.1
      rw [hc, hreaped] at htally
      exact htally
    · by_cases hdc : d = c
      · exact hdc ▸ hst
      · exact h.2.2.2 d ((Function.update_of_ne hdc true parent.reaped).symm.trans hd)
  | fail i c hpc hst => exact absurd hst (hfailed c)
  | waited i hpc hi =>
    rw [Inv, hpc] at h
    refine ⟨fun c => h.2.2.2 c ?_, fun c hc => by cases hc⟩
    -- as many have been reaped as there are: all of them
    have hall : Fintype.card (Fin n) ≤ parent.numReaped := by
      rw [Fintype.card_fin, h.2.1]
      exact hi
    exact Bool.toNat_eq_one.mp (eq_one_of_card_le_tally Bool.toNat_le hall c)
  | close hpc =>
    rw [Inv, hpc] at h
    exact ⟨h, fun c hc => by cases hc⟩

/-- `fork` never has to wait. -/
theorem Inv.ne_notForked_of_stuck (h : Inv parent status)
    (hstuck : ∀ child, parentStep parent status child = none) (c : Fin n) :
    status c ≠ .notForked := by
  cases hpc : parent.pc with
  | forking i =>
    have hnone := hstuck none
    simp only [parentStep, hpc] at hnone
    split at hnone <;> cases hnone
  | waiting i =>
    rw [Inv, hpc] at h
    exact h.1 c
  | closing =>
    rw [Inv, hpc] at h
    rw [h c]
    exact Status.noConfusion
  | exited b =>
    rw [Inv, hpc] at h
    cases b with
    | false => exact h.elim
    | true =>
      rw [h c]
      exact Status.noConfusion

/-- The parent of children that have all exited goes on to its own end. -/
theorem Inv.exited_of_stuck (h : Inv parent status)
    (hstuck : ∀ child, parentStep parent status child = none) (hexited : ∀ c, status c = .exited) :
    parent.pc = .exited true := by
  cases hpc : parent.pc with
  | forking i =>
    have hnone := hstuck none
    simp only [parentStep, hpc] at hnone
    split at hnone <;> cases hnone
  | waiting i =>
    rw [Inv, hpc] at h
    by_cases hi : i < n
    · -- a child that has not been waited for
      have hlt : tally Bool.toNat parent.reaped < Fintype.card (Fin n) := by
        rw [Fintype.card_fin]
        exact h.2.1.trans_lt hi
      obtain ⟨c, hc⟩ := exists_eq_zero_of_tally_lt hlt
      have hsome := hstuck (some c)
      simp only [parentStep, hpc, if_pos hi, Bool.toNat_eq_zero.mp hc, hexited c] at hsome
      cases hsome
    · have hnone := hstuck none
      simp only [parentStep, hpc, if_neg hi] at hnone
      cases hnone
  | closing =>
    have hnone := hstuck none
    simp only [parentStep, hpc] at hnone
    cases hnone
  | exited b =>
    rw [Inv, hpc] at h
    cases b with
    | false => exact h.elim
    | true => rfl

/-- A parent that has closed its descriptors has seen all its children exit. -/
theorem Inv.exited_of_closed (h : Inv parent status) (hclosed : parent.isOpen = false)
    (c : Fin n) : status c = .exited := by
  cases hpc : parent.pc with
  | exited b =>
    rw [Inv, hpc] at h
    cases b with
    | false => exact h.elim
    | true => exact h c
  | _ =>
    rw [Parent.isOpen, hpc] at hclosed
    cases hclosed

end ForkWait
