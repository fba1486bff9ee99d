/-
The invariant of the semaphore-guarded ring.

On top of the books of `SemRing.lean`:

* `Indexes` — each index is its side's count of accesses, modulo `B`;
* `Contents` — the cells hold the unread values, and the trace is one of a
  queue of capacity `B`;
* `Inv.step` — the books, the indexes and the contents are preserved by every
  step;
* `Inv.load_full`, `Inv.store_free` — no load from a cell without an unread
  value, no store over one;
* `Inv.indexes_ne` — a producer and a consumer at work are at different cells.
-/
import SistemiDiCalcolo.SemRing
import Mathlib.Data.Nat.ModEq
import Mathlib.Data.List.Infix

open Function (update)

namespace SemRing

variable {ι κ μ α : Type*}

/-! ### The indexes -/

section Indexes

variable [Fintype ι] [Fintype κ] {B : ℕ} {wr rd : μ} {s s' : State ι κ μ α}

/-- Each index stands at its side's number of accesses, less the one whose agent
has not moved it yet; a register holds the index it was read from. -/
structure Indexes (B : ℕ) (s : State ι κ μ α) : Prop where
  write_lt : s.writeIndex < B
  read_lt : s.readIndex < B
  write : s.writeIndex + tally Phase.lag s.prod ≡ (stores s.trace).length [MOD B]
  read : s.readIndex + tally Phase.lag s.cons ≡ (loads s.trace).length [MOD B]
  prodReg : ∀ p i, s.prod p = .fetched i ∨ s.prod p = .refetched i → i = s.writeIndex
  consReg : ∀ c i, s.cons c = .fetched i ∨ s.cons c = .refetched i → i = s.readIndex

theorem Initial.indexes (hB : 0 < B) (h : Initial B s) : Indexes B s where
  write_lt := by rw [h.writeIndex]; exact hB
  read_lt := by rw [h.readIndex]; exact hB
  write := by simp [h.writeIndex, h.prod, h.trace, tally_const]; rfl
  read := by simp [h.readIndex, h.cons, h.trace, tally_const]; rfl
  prodReg p i hp := by simp [h.prod] at hp
  consReg c i hc := by simp [h.cons] at hc

namespace Indexes

/-- The registers of the other agents survive a move of agent `i` that leaves
the index `x` alone, and `i`'s own new register is `x`. -/
theorem reg_update {A : Type*} [DecidableEq A] {g : A → Phase} {x : ℕ}
    (hreg : ∀ j k, g j = .fetched k ∨ g j = .refetched k → k = x) {i : A} {b : Phase}
    (hb : ∀ k, b = .fetched k ∨ b = .refetched k → k = x) (j : A) (k : ℕ)
    (h : update g i b j = .fetched k ∨ update g i b j = .refetched k) : k = x := by
  by_cases hj : j = i
  · subst hj
    rw [Function.update_self] at h
    exact hb k h
  · rw [Function.update_of_ne hj] at h
    exact hreg j k h

/-- A producer's move that stores nothing and leaves both indexes alone. -/
theorem prodMove [DecidableEq ι] (hs : Indexes B s) {p : ι} {a b : Phase} (hp : s.prod p = a)
    (hprod : s'.prod = update s.prod p b) (hcons : s'.cons = s.cons)
    (hw : s'.writeIndex = s.writeIndex) (hr : s'.readIndex = s.readIndex)
    (hloads : loads s'.trace = loads s.trace)
    (hstores : (stores s'.trace).length + a.lag = (stores s.trace).length + b.lag)
    (hb : ∀ k, b = .fetched k ∨ b = .refetched k → k = s.writeIndex) : Indexes B s' := by
  have hlag := tally_update Phase.lag s.prod p b
  rw [hp] at hlag
  refine ⟨hw ▸ hs.write_lt, hr ▸ hs.read_lt, ?_, ?_, ?_, ?_⟩
  · rw [hw, hprod]
    -- with the mover's old lag added, both sides grow by its new lag
    refine Nat.ModEq.add_right_cancel' a.lag ?_
    rw [hstores, Nat.add_assoc, hlag, ← Nat.add_assoc]
    exact hs.write.add_right _
  · rw [hr, hcons, hloads]
    exact hs.read
  · rw [hprod, hw]
    exact reg_update hs.prodReg hb
  · rw [hcons, hr]
    exact hs.consReg

/-- A consumer's move that loads nothing and leaves both indexes alone. -/
theorem consMove [DecidableEq κ] (hs : Indexes B s) {c : κ} {a b : Phase} (hc : s.cons c = a)
    (hcons : s'.cons = update s.cons c b) (hprod : s'.prod = s.prod)
    (hw : s'.writeIndex = s.writeIndex) (hr : s'.readIndex = s.readIndex)
    (hstores : stores s'.trace = stores s.trace)
    (hloads : (loads s'.trace).length + a.lag = (loads s.trace).length + b.lag)
    (hb : ∀ k, b = .fetched k ∨ b = .refetched k → k = s.readIndex) : Indexes B s' := by
  have hlag := tally_update Phase.lag s.cons c b
  rw [hc] at hlag
  refine ⟨hw ▸ hs.write_lt, hr ▸ hs.read_lt, ?_, ?_, ?_, ?_⟩
  · rw [hw, hprod, hstores]
    exact hs.write
  · rw [hr, hcons]
    refine Nat.ModEq.add_right_cancel' a.lag ?_
    rw [hloads, Nat.add_assoc, hlag, ← Nat.add_assoc]
    exact hs.read.add_right _
  · rw [hprod, hw]
    exact hs.prodReg
  · rw [hcons, hr]
    exact reg_update hs.consReg hb

/-- The register of the agent that is about to store at, or to move, the index. -/
theorem write_eq [DecidableEq ι] [DecidableEq μ] (hs : Indexes B s) (hl : Ledger B wr rd s) {p : ι}
    (hp : (s.prod p).inside = 1) (hlag : (s.prod p).lag = 0) :
    s.writeIndex = (stores s.trace).length % B := by
  have hw := hs.write
  rw [hl.lag_prod hp, hlag, Nat.add_zero] at hw
  rw [← hw, Nat.mod_eq_of_lt hs.write_lt]

theorem read_eq [DecidableEq κ] [DecidableEq μ] (hs : Indexes B s) (hl : Ledger B wr rd s) {c : κ}
    (hc : (s.cons c).inside = 1) (hlag : (s.cons c).lag = 0) :
    s.readIndex = (loads s.trace).length % B := by
  have hr := hs.read
  rw [hl.lag_cons hc, hlag, Nat.add_zero] at hr
  rw [← hr, Nat.mod_eq_of_lt hs.read_lt]

/-- When a producer moves the write index, the step of that index makes up for
its lag, and no other producer has it in a register. -/
theorem advanceWrite [DecidableEq ι] [DecidableEq μ] (hB : 0 < B) (hs : Indexes B s)
    (hl : Ledger B wr rd s) {p : ι} {i : ℕ} (hp : s.prod p = .refetched i) :
    Indexes B { s with writeIndex := (i + 1) % B, prod := update s.prod p .advanced } := by
  obtain rfl := hs.prodReg p i (.inr hp)
  have hin : (s.prod p).inside = 1 := by rw [hp]; rfl
  have hlag := tally_update Phase.lag s.prod p .advanced
  rw [hp] at hlag
  refine ⟨Nat.mod_lt _ hB, hs.read_lt, ?_, hs.read, fun q k hq => ?_, hs.consReg⟩
  · have hw := hs.write
    rw [hl.lag_prod hin, hp] at hw hlag
    -- the mover was the only one behind its index
    have hzero : tally Phase.lag (update s.prod p .advanced) = 0 := by
      simp only [Phase.lag] at hlag
      omega
    dsimp only
    rw [hzero, Nat.add_zero]
    exact (Nat.mod_modEq _ _).trans hw
  · dsimp only at hq ⊢
    -- a register would put `q` in the section, where `p` is alone
    have hne : q ≠ p := by
      rintro rfl
      rw [Function.update_self] at hq
      simp at hq
    rw [Function.update_of_ne hne] at hq
    refine absurd (hl.prod_unique ?_ hin) hne
    rcases hq with hq | hq <;> rw [hq] <;> rfl

theorem advanceRead [DecidableEq κ] [DecidableEq μ] (hB : 0 < B) (hs : Indexes B s)
    (hl : Ledger B wr rd s) {c : κ} {i : ℕ} (hc : s.cons c = .refetched i) :
    Indexes B { s with readIndex := (i + 1) % B, cons := update s.cons c .advanced } := by
  obtain rfl := hs.consReg c i (.inr hc)
  have hin : (s.cons c).inside = 1 := by rw [hc]; rfl
  have hlag := tally_update Phase.lag s.cons c .advanced
  rw [hc] at hlag
  refine ⟨hs.write_lt, Nat.mod_lt _ hB, hs.write, ?_, hs.prodReg, fun d k hd => ?_⟩
  · have hr := hs.read
    rw [hl.lag_cons hin, hc] at hr hlag
    have hzero : tally Phase.lag (update s.cons c .advanced) = 0 := by
      simp only [Phase.lag] at hlag
      omega
    dsimp only
    rw [hzero, Nat.add_zero]
    exact (Nat.mod_modEq _ _).trans hr
  · dsimp only at hd ⊢
    have hne : d ≠ c := by
      rintro rfl
      rw [Function.update_self] at hd
      simp at hd
    rw [Function.update_of_ne hne] at hd
    refine absurd (hl.cons_unique ?_ hin) hne
    rcases hd with hd | hd <;> rw [hd] <;> rfl

/-- Every step keeps the indexes. -/
theorem step [DecidableEq ι] [DecidableEq κ] [DecidableEq μ] (hB : 0 < B) (hs : Indexes B s)
    (hl : Ledger B wr rd s) (h : Step B wr rd s s') : Indexes B s' := by
  cases h with
  | claimEmpty p hp hpos => exact hs.prodMove hp rfl rfl rfl rfl rfl rfl (by simp)
  | lockWrite p hp hpos => exact hs.prodMove hp rfl rfl rfl rfl rfl rfl (by simp)
  | fetchWrite p hp => exact hs.prodMove hp rfl rfl rfl rfl rfl rfl (by simp)
  | store p i v hp =>
    refine hs.prodMove hp rfl rfl rfl rfl (loads_append_store ..) ?_ (by simp)
    simp
  | refetchWrite p hp => exact hs.prodMove hp rfl rfl rfl rfl rfl rfl (by simp)
  | advanceWrite p i hp => exact hs.advanceWrite hB hl hp
  | unlockWrite p hp => exact hs.prodMove hp rfl rfl rfl rfl rfl rfl (by simp)
  | giveFilled p hp => exact hs.prodMove hp rfl rfl rfl rfl rfl rfl (by simp)
  | claimFilled c hc hpos => exact hs.consMove hc rfl rfl rfl rfl rfl rfl (by simp)
  | lockRead c hc hpos => exact hs.consMove hc rfl rfl rfl rfl rfl rfl (by simp)
  | fetchRead c hc => exact hs.consMove hc rfl rfl rfl rfl rfl rfl (by simp)
  | load c i hc =>
    refine hs.consMove hc rfl rfl rfl rfl (stores_append_load ..) ?_ (by simp)
    simp
  | refetchRead c hc => exact hs.consMove hc rfl rfl rfl rfl rfl rfl (by simp)
  | advanceRead c i hc => exact hs.advanceRead hB hl hc
  | unlockRead c hc => exact hs.consMove hc rfl rfl rfl rfl rfl rfl (by simp)
  | giveEmpty c hc => exact hs.consMove hc rfl rfl rfl rfl rfl rfl (by simp)

end Indexes

end Indexes

/-! ### The cells -/

section Contents

variable {B : ℕ} {s s' : State ι κ μ α}

/-- The `k`-th value stored stands in cell `k % B` until it is loaded, and the
cells marked full are the ones that hold such a value. -/
structure Contents (B : ℕ) (s : State ι κ μ α) : Prop where
  fifo : Fifo B s.trace
  cell : ∀ k, (loads s.trace).length ≤ k → k < (stores s.trace).length →
    (stores s.trace)[k]? = some (s.cell (k % B))
  full : ∀ i, s.full i = true ↔
    ∃ k, (loads s.trace).length ≤ k ∧ k < (stores s.trace).length ∧ k % B = i

theorem Initial.contents (h : Initial B s) : Contents B s where
  fifo := h.trace ▸ .nil
  cell k _ hk := by simp [h.trace] at hk
  full i := by simp [h.full, h.trace]

namespace Contents

/-- Steps that touch no cell. -/
theorem congr (hs : Contents B s) (htrace : s'.trace = s.trace) (hcell : s'.cell = s.cell)
    (hfull : s'.full = s.full) : Contents B s' :=
  ⟨htrace ▸ hs.fifo, htrace ▸ hcell ▸ hs.cell, htrace ▸ hfull ▸ hs.full⟩

/-- A store at the position after the last one, with room for it, overwrites no
unread value. -/
theorem store [DecidableEq ι] (hs : Contents B s) {p : ι} {v : α} {φ : ι → Phase}
    (hroom : (stores s.trace).length < (loads s.trace).length + B) :
    Contents B { s with
      cell := update s.cell ((stores s.trace).length % B) v,
      full := update s.full ((stores s.trace).length % B) true,
      prod := φ, trace := s.trace ++ [.store p v] } := by
  set W := (stores s.trace).length with hW
  set R := (loads s.trace).length with hR
  refine ⟨.store p v hs.fifo hroom, fun k hk hk' => ?_, fun i => ?_⟩
  · simp only [stores_append_store, loads_append_store, List.length_append,
      List.length_singleton, ← hW, ← hR] at hk hk' ⊢
    -- the new value is at the new position, and the unread ones are in other cells
    by_cases hlast : k = W
    · rw [hlast, List.getElem?_append_right le_rfl, ← hW, Nat.sub_self, Function.update_self]
      rfl
    · have hlt : k < W := by omega
      rw [List.getElem?_append_left (by omega),
        Function.update_of_ne (mod_ne_mod hlt (by omega))]
      exact hs.cell k hk hlt
  · simp only [stores_append_store, loads_append_store, List.length_append,
      List.length_singleton, ← hW, ← hR]
    by_cases hi : i = W % B
    · rw [hi, Function.update_self]
      have hle := hs.fifo.loads_prefix_stores.length_le
      exact ⟨fun _ => ⟨W, hle, Nat.lt_succ_self W, rfl⟩, fun _ => rfl⟩
    · rw [Function.update_of_ne hi, hs.full i]
      constructor
      · rintro ⟨k, hk, hk', hki⟩
        exact ⟨k, hk, Nat.lt_succ_of_lt hk', hki⟩
      · rintro ⟨k, hk, hk', hki⟩
        refine ⟨k, hk, lt_of_le_of_ne (Nat.le_of_lt_succ hk') ?_, hki⟩
        rintro rfl
        exact hi hki.symm

/-- A load at the oldest unread position returns the value stored there. -/
theorem load [DecidableEq κ] (hs : Contents B s) {c : κ} {φ : κ → Phase}
    (hunread : (loads s.trace).length < (stores s.trace).length) :
    Contents B { s with
      full := update s.full ((loads s.trace).length % B) false,
      cons := φ,
      trace := s.trace ++ [.load c (s.cell ((loads s.trace).length % B))] } := by
  set W := (stores s.trace).length with hW
  set R := (loads s.trace).length with hR
  have hocc : W ≤ R + B := hs.fifo.occupancy
  refine ⟨.load c hs.fifo (hs.cell R le_rfl hunread), fun k hk hk' => ?_, fun i => ?_⟩
  · simp only [stores_append_load, loads_append_load, List.length_append,
      List.length_singleton] at hk hk' ⊢
    exact hs.cell k (by omega) hk'
  · simp only [stores_append_load, loads_append_load, List.length_append,
      List.length_singleton, ← hW, ← hR]
    by_cases hi : i = R % B
    · rw [hi, Function.update_self]
      refine ⟨fun h => by simp at h, ?_⟩
      rintro ⟨k, hk, hk', hki⟩
      exact absurd hki.symm (mod_ne_mod (by omega) (by omega))
    · rw [Function.update_of_ne hi, hs.full i]
      constructor
      · rintro ⟨k, hk, hk', hki⟩
        refine ⟨k, Nat.lt_of_le_of_ne hk ?_, hk', hki⟩
        rintro rfl
        exact hi hki.symm
      · rintro ⟨k, hk, hk', hki⟩
        exact ⟨k, by omega, hk', hki⟩

end Contents

end Contents

/-! ### The invariant -/

section Inv

variable [Fintype ι] [Fintype κ] [DecidableEq μ] {B : ℕ} {wr rd : μ} {s s' : State ι κ μ α}

/-- The invariant of the ring: its books, its indexes and its cells. -/
structure Inv (B : ℕ) (wr rd : μ) (s : State ι κ μ α) : Prop where
  ledger : Ledger B wr rd s
  indexes : Indexes B s
  contents : Contents B s

theorem Initial.inv (hB : 0 < B) (h : Initial B s) : Inv B wr rd s :=
  ⟨h.ledger, h.indexes hB, h.contents⟩

namespace Inv

/-- A producer that is about to store does so at the first free position. -/
theorem store_index [DecidableEq ι] (hs : Inv B wr rd s) {p : ι} {i : ℕ}
    (hp : s.prod p = .fetched i) :
    i = (stores s.trace).length % B := by
  rw [hs.indexes.prodReg p i (.inl hp)]
  exact hs.indexes.write_eq hs.ledger (p := p) (by rw [hp]; rfl) (by rw [hp]; rfl)

/-- A consumer that is about to load does so at the oldest unread position. -/
theorem load_index [DecidableEq κ] (hs : Inv B wr rd s) {c : κ} {i : ℕ}
    (hc : s.cons c = .fetched i) :
    i = (loads s.trace).length % B := by
  rw [hs.indexes.consReg c i (.inl hc)]
  exact hs.indexes.read_eq hs.ledger (c := c) (by rw [hc]; rfl) (by rw [hc]; rfl)

theorem store_room (hs : Inv B wr rd s) {p : ι} {i : ℕ} (hp : s.prod p = .fetched i) :
    (stores s.trace).length < (loads s.trace).length + B :=
  hs.ledger.room (p := p) (by rw [hp]; rfl)

theorem load_unread (hs : Inv B wr rd s) {c : κ} {i : ℕ} (hc : s.cons c = .fetched i) :
    (loads s.trace).length < (stores s.trace).length :=
  hs.ledger.unread (c := c) (by rw [hc]; rfl)

/-- **The invariant is preserved** by every step of every agent. -/
theorem step [DecidableEq ι] [DecidableEq κ] (hB : 0 < B) (hs : Inv B wr rd s)
    (h : Step B wr rd s s') : Inv B wr rd s' := by
  refine ⟨hs.ledger.step h, hs.indexes.step hB hs.ledger h, ?_⟩
  cases h with
  | store p i v hp =>
    rw [hs.store_index hp]
    exact hs.contents.store (hs.store_room hp)
  | load c i hc =>
    rw [hs.load_index hc]
    exact hs.contents.load (hs.load_unread hc)
  | _ => exact hs.contents.congr rfl rfl rfl

/-- A cell that is about to be loaded holds an unread value. -/
theorem load_full [DecidableEq κ] (hs : Inv B wr rd s) {c : κ} {i : ℕ}
    (hc : s.cons c = .fetched i) :
    s.full i = true :=
  (hs.contents.full i).mpr
    ⟨_, le_rfl, hs.load_unread hc, (hs.load_index hc).symm⟩

/-- A cell that is about to be stored to holds no unread value. -/
theorem store_free [DecidableEq ι] (hs : Inv B wr rd s) {p : ι} {i : ℕ}
    (hp : s.prod p = .fetched i) :
    s.full i = false := by
  rw [Bool.eq_false_iff]
  intro hfull
  obtain ⟨k, hk, hk', hki⟩ := (hs.contents.full i).mp hfull
  rw [hs.store_index hp] at hki
  have := hs.store_room hp
  exact mod_ne_mod hk' (by omega) hki

/-- **Slot exclusivity**: while a producer and a consumer are both in their
sections and have not moved their indexes, the two indexes differ. -/
theorem indexes_ne [DecidableEq ι] [DecidableEq κ] (hs : Inv B wr rd s) {p : ι} {c : κ}
    (hp : (s.prod p).Working) (hc : (s.cons c).Working) : s.writeIndex ≠ s.readIndex := by
  intro heq
  have hw := hs.indexes.write
  have hr := hs.indexes.read
  rw [hs.ledger.lag_prod hp.1] at hw
  rw [hs.ledger.lag_cons hc.1, ← heq] at hr
  -- both counts of accesses, corrected by the other side's lag, are congruent
  have hmod : (loads s.trace).length + (s.prod p).lag
      ≡ (stores s.trace).length + (s.cons c).lag [MOD B] := by
    refine (hr.symm.add_right _).trans (.trans ?_ (hw.add_right _))
    rw [Nat.add_right_comm]
  -- and the tokens that the two agents hold keep them less than `B` apart
  have h₁ := hs.ledger.filled
  have h₂ := hs.ledger.empty
  have h₃ := hp.pre_add_lag
  have h₄ := hc.pre_add_lag
  have h₅ := le_tally Phase.pre s.prod p
  have h₆ := le_tally Phase.post s.prod p
  have h₇ := le_tally Phase.pre s.cons c
  have h₈ := le_tally Phase.post s.cons c
  have h₉ := (s.prod p).lag_le_post
  have h₁₀ := (s.cons c).lag_le_post
  exact mod_ne_mod (by omega) (by omega) hmod

end Inv

end Inv

end SemRing
