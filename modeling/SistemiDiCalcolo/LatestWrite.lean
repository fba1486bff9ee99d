/-
What the cells of a ring hold.

Values are stored one after another, the `i`-th at cell `i % B`, whether or not anybody has read
what was there before.

* `latest` — the number of the last store to a cell, of the first `p`;
* `latest_eq_some_self` — for the cell of the `j`-th store it is `j` exactly if that store has been
  made, and less than a whole round of stores after it;
* `Holds` — every cell holds the latest value stored to it, which a store keeps (`Holds.store`);
* `Ring.loads_prefix` — loads that come neither too early nor too late are those of a queue.
-/
import SistemiDiCalcolo.BoundedFifo

open Function (update)

namespace LatestWrite

variable {α : Type*} {B p c i j : ℕ} {init v : α} {vs : List α} {cell : ℕ → α}

/-- The last of the first `p` stores to cell `c`. -/
def latest (B : ℕ) : ℕ → ℕ → Option ℕ
  | 0, _ => none
  | p + 1, c => if p % B = c then some p else latest B p c

theorem lt_of_latest (h : latest B p c = some i) : i < p := by
  induction p with
  | zero => cases h
  | succ p ih =>
    rw [latest] at h
    split_ifs at h with hc
    · exact (Option.some.inj h) ▸ Nat.lt_succ_self p
    · exact Nat.lt_succ_of_lt (ih h)

/-- Nothing is stored to the cell after its latest store. -/
theorem mod_ne_of_latest (h : latest B p c = some i) {k : ℕ} (hik : i < k) (hkp : k < p) :
    k % B ≠ c := by
  induction p with
  | zero => cases h
  | succ p ih =>
    rw [latest] at h
    split_ifs at h with hc
    · cases h
      exact absurd hkp (Nat.not_lt.mpr hik)
    · rcases Nat.lt_succ_iff_lt_or_eq.mp hkp with hlt | rfl
      · exact ih h hlt
      · exact hc

theorem latest_of_window (hj : j < p) (hp : p ≤ j + B) : latest B p (j % B) = some j := by
  induction p with
  | zero => exact absurd hj (Nat.not_lt_zero j)
  | succ p ih =>
    rw [latest]
    rcases Nat.lt_succ_iff_lt_or_eq.mp hj with hlt | rfl
    · rw [if_neg (mod_ne_mod hlt (by omega)).symm]
      exact ih hlt (by omega)
    · rw [if_pos rfl]

/-- **The window**: the cell of the `j`-th store holds what that store put there exactly if it has
been made, and the stores after it have not come round to the cell again. -/
theorem latest_eq_some_self (hB : 0 < B) :
    latest B p (j % B) = some j ↔ j < p ∧ p ≤ j + B := by
  constructor
  · intro h
    refine ⟨lt_of_latest h, Nat.not_lt.mp fun hlt => ?_⟩
    exact mod_ne_of_latest h (k := j + B) (by omega) hlt (Nat.add_mod_right j B)
  · rintro ⟨hj, hp⟩
    exact latest_of_window hj hp

/-- What cell `c` holds after the stores of `vs`. -/
def written (B : ℕ) (init : α) (vs : List α) (c : ℕ) : α :=
  ((latest B vs.length c).bind fun i => vs[i]?).getD init

theorem written_append (h : p ≤ vs.length) (ws : List α) :
    ((latest B p c).bind fun i => (vs ++ ws)[i]?) = (latest B p c).bind fun i => vs[i]? := by
  cases hl : latest B p c with
  | none => rfl
  | some i => exact List.getElem?_append_left ((lt_of_latest hl).trans_le h)

/-- Every cell of the ring holds the latest value stored to it. -/
def Holds (B : ℕ) (init : α) (vs : List α) (cell : ℕ → α) : Prop :=
  ∀ c, cell c = written B init vs c

theorem holds_nil (B : ℕ) (init : α) : Holds B init [] fun _ => init := fun _ => rfl

theorem Holds.store (h : Holds B init vs cell) (v : α) :
    Holds B init (vs ++ [v]) (update cell (vs.length % B) v) := by
  intro c
  rw [written, List.length_append, List.length_singleton, latest]
  by_cases hc : vs.length % B = c
  · subst hc
    rw [if_pos rfl, Function.update_self]
    simp
  · rw [if_neg hc, Function.update_of_ne (Ne.symm hc), written_append le_rfl]
    exact h c

/-! ### Traces -/

section Traces

variable {ι κ : Type*} {tr us ws : List (Event ι κ α)} {x y : Event ι κ α}

/-- Where an event stands in a trace that goes on by one. -/
theorem split_concat (h : tr ++ [x] = us ++ y :: ws) :
    tr = us ∧ x = y ∨ ∃ ws', tr = us ++ y :: ws' := by
  rcases List.eq_nil_or_concat ws with rfl | ⟨ws', z, rfl⟩
  · obtain ⟨htr, hx⟩ := List.append_inj' h rfl
    exact .inl ⟨htr, List.head_eq_of_cons_eq hx⟩
  · refine .inr ⟨ws', ?_⟩
    rw [List.concat_eq_append, ← List.cons_append, ← List.append_assoc] at h
    exact (List.append_inj' h rfl).1

/-- Each load returns what its cell holds, when the loads go round the ring as the stores do. -/
def Ring (B : ℕ) (init : α) (tr : List (Event ι κ α)) : Prop :=
  ∀ us c v ws, tr = us ++ .load c v :: ws → v = written B init (stores us) ((loads us).length % B)

/-- Each load comes after the store of its number, and less than a round of stores later. -/
def InWindow (B : ℕ) (tr : List (Event ι κ α)) : Prop :=
  ∀ us c v ws, tr = us ++ .load c v :: ws →
    (loads us).length < (stores us).length ∧ (stores us).length ≤ (loads us).length + B

theorem ring_nil : Ring B init ([] : List (Event ι κ α)) := by
  intro us c v ws h
  cases us <;> cases h

theorem Ring.store (h : Ring B init tr) (p : ι) (v : α) : Ring B init (tr ++ [.store p v]) := by
  intro us c w ws htr
  rcases split_concat htr with ⟨-, hx⟩ | ⟨ws', hsplit⟩
  · cases hx
  · exact h us c w ws' hsplit

theorem Ring.load (h : Ring B init tr) (c : κ)
    (hv : v = written B init (stores tr) ((loads tr).length % B)) :
    Ring B init (tr ++ [.load c v]) := by
  intro us d w ws htr
  rcases split_concat htr with ⟨rfl, hx⟩ | ⟨ws', hsplit⟩
  · cases hx
    exact hv
  · exact h us d w ws' hsplit

/-- **First in, first out**: in the window, the values loaded are a prefix of those stored. -/
theorem Ring.loads_prefix (h : Ring B init tr) (hwindow : InWindow B tr) :
    loads tr <+: stores tr := by
  induction tr using List.reverseRecOn with
  | nil => exact List.prefix_rfl
  | append_singleton tr x ih =>
    have hbefore := ih (fun us c v ws htr => h us c v (ws ++ [x]) (by simp [htr]))
      (fun us c v ws htr => hwindow us c v (ws ++ [x]) (by simp [htr]))
    cases x with
    | store p v =>
      rw [loads_append_store, stores_append_store]
      exact hbefore.trans (List.prefix_append _ _)
    | load c v =>
      obtain ⟨hlt, hle⟩ := hwindow tr c v [] rfl
      have hv := h tr c v [] rfl
      rw [written, latest_of_window hlt hle, Option.bind_some,
        List.getElem?_eq_getElem hlt, Option.getD_some] at hv
      rw [loads_append_load, stores_append_load]
      refine prefix_concat_of_getElem? hbefore ?_
      rw [List.getElem?_eq_getElem hlt, hv]

end Traces

end LatestWrite

/-- The loads of a queue are in the window. -/
theorem Fifo.inWindow {ι κ α : Type*} {B : ℕ} {tr : List (Event ι κ α)} (h : Fifo B tr) :
    LatestWrite.InWindow B tr := by
  induction h with
  | nil =>
    intro us c v ws h
    cases us <;> cases h
  | store p v _ _ ih =>
    intro us c w ws htr
    rcases LatestWrite.split_concat htr with ⟨-, hx⟩ | ⟨ws', hsplit⟩
    · cases hx
    · exact ih us c w ws' hsplit
  | load c hfifo hv ih =>
    intro us d w ws htr
    rcases LatestWrite.split_concat htr with ⟨rfl, -⟩ | ⟨ws', hsplit⟩
    · exact ⟨(List.getElem?_eq_some_iff.mp hv).1, hfifo.occupancy⟩
    · exact ih us d w ws' hsplit
