/-
A ring buffer guarded by semaphores.

Producers and consumers share an array of `B` cells with a write index and a
read index.  A producer takes a token of the counting semaphore `empty`, locks
the producers' mutex, stores at the write index, moves that index, unlocks and
gives a token of `filled`; a consumer does the same with the two counting
semaphores and the two indexes exchanged.  Every semaphore operation and every
load and store of an index or a cell is a step of its own.  The mutexes `wr` and
`rd` of the two sides may be one and the same.

* `Step` — the protocol;
* `Ledger` — where the tokens are: those of `filled` and of the agents that hold
  one add up to the unread cells, those of `empty` to the free ones;
* `Ledger.step` — every step keeps these books;
* `Ledger.prod_unique`, `Ledger.cons_unique` — mutual exclusion on each side.
-/
import SistemiDiCalcolo.BoundedFifo

open Function (update)

namespace SemRing

/-- Where an agent is in its round.  `fetched i` and `refetched i` carry the
index it has just read into a register. -/
inductive Phase
  | idle
  | claimed
  | entered
  | fetched (i : ℕ)
  | accessed
  | refetched (i : ℕ)
  | advanced
  | left
  deriving DecidableEq, Repr

namespace Phase

/-- The agent holds a token and has not yet accessed its cell. -/
@[simp] def pre : Phase → ℕ
  | claimed | entered | fetched _ => 1
  | _ => 0

/-- The agent has accessed its cell and has not yet given its token back. -/
@[simp] def post : Phase → ℕ
  | accessed | refetched _ | advanced | left => 1
  | _ => 0

/-- The agent holds its side's mutex. -/
@[simp] def inside : Phase → ℕ
  | entered | fetched _ | accessed | refetched _ | advanced => 1
  | _ => 0

/-- The agent has accessed its cell and has not yet moved the index. -/
@[simp] def lag : Phase → ℕ
  | accessed | refetched _ => 1
  | _ => 0

/-- The agent is in its section and has not yet moved the index. -/
def Working (φ : Phase) : Prop := φ.inside = 1 ∧ φ ≠ advanced

theorem lag_eq_zero (φ : Phase) (h : φ.inside = 0) : φ.lag = 0 := by
  cases φ <;> simp_all

theorem lag_le_post (φ : Phase) : φ.lag ≤ φ.post := by cases φ <;> simp

theorem Working.pre_add_lag {φ : Phase} (h : φ.Working) : φ.pre + φ.lag = 1 := by
  obtain ⟨h₁, h₂⟩ := h
  cases φ <;> simp_all

end Phase

variable {ι κ μ α : Type*}

/-- The shared memory, the phase of every agent, and what has happened so far:
the trace of accesses and, for each cell, whether it holds an unread value. -/
structure State (ι κ μ α : Type*) where
  lock : μ → ℕ
  filled : ℕ
  empty : ℕ
  writeIndex : ℕ
  readIndex : ℕ
  cell : ℕ → α
  full : ℕ → Bool
  prod : ι → Phase
  cons : κ → Phase
  trace : List (Event ι κ α)

/-- Nobody has started: all mutexes free, all `B` tokens in `empty`. -/
structure Initial (B : ℕ) (s : State ι κ μ α) : Prop where
  lock : ∀ m, s.lock m = 1
  filled : s.filled = 0
  empty : s.empty = B
  writeIndex : s.writeIndex = 0
  readIndex : s.readIndex = 0
  full : ∀ i, s.full i = false
  prod : s.prod = fun _ => .idle
  cons : s.cons = fun _ => .idle
  trace : s.trace = []

section Steps

variable [DecidableEq ι] [DecidableEq κ] [DecidableEq μ]

/-- The steps of the producers and of the consumers. -/
inductive Step (B : ℕ) (wr rd : μ) (s : State ι κ μ α) : State ι κ μ α → Prop
  | claimEmpty (p : ι) : s.prod p = .idle → 0 < s.empty →
      Step B wr rd s { s with empty := s.empty - 1, prod := update s.prod p .claimed }
  | lockWrite (p : ι) : s.prod p = .claimed → 0 < s.lock wr →
      Step B wr rd s { s with
        lock := update s.lock wr (s.lock wr - 1), prod := update s.prod p .entered }
  | fetchWrite (p : ι) : s.prod p = .entered →
      Step B wr rd s { s with prod := update s.prod p (.fetched s.writeIndex) }
  | store (p : ι) (i : ℕ) (v : α) : s.prod p = .fetched i →
      Step B wr rd s { s with
        cell := update s.cell i v, full := update s.full i true,
        prod := update s.prod p .accessed, trace := s.trace ++ [.store p v] }
  | refetchWrite (p : ι) : s.prod p = .accessed →
      Step B wr rd s { s with prod := update s.prod p (.refetched s.writeIndex) }
  | advanceWrite (p : ι) (i : ℕ) : s.prod p = .refetched i →
      Step B wr rd s { s with writeIndex := (i + 1) % B, prod := update s.prod p .advanced }
  | unlockWrite (p : ι) : s.prod p = .advanced →
      Step B wr rd s { s with
        lock := update s.lock wr (s.lock wr + 1), prod := update s.prod p .left }
  | giveFilled (p : ι) : s.prod p = .left →
      Step B wr rd s { s with filled := s.filled + 1, prod := update s.prod p .idle }
  | claimFilled (c : κ) : s.cons c = .idle → 0 < s.filled →
      Step B wr rd s { s with filled := s.filled - 1, cons := update s.cons c .claimed }
  | lockRead (c : κ) : s.cons c = .claimed → 0 < s.lock rd →
      Step B wr rd s { s with
        lock := update s.lock rd (s.lock rd - 1), cons := update s.cons c .entered }
  | fetchRead (c : κ) : s.cons c = .entered →
      Step B wr rd s { s with cons := update s.cons c (.fetched s.readIndex) }
  | load (c : κ) (i : ℕ) : s.cons c = .fetched i →
      Step B wr rd s { s with
        full := update s.full i false,
        cons := update s.cons c .accessed, trace := s.trace ++ [.load c (s.cell i)] }
  | refetchRead (c : κ) : s.cons c = .accessed →
      Step B wr rd s { s with cons := update s.cons c (.refetched s.readIndex) }
  | advanceRead (c : κ) (i : ℕ) : s.cons c = .refetched i →
      Step B wr rd s { s with readIndex := (i + 1) % B, cons := update s.cons c .advanced }
  | unlockRead (c : κ) : s.cons c = .advanced →
      Step B wr rd s { s with
        lock := update s.lock rd (s.lock rd + 1), cons := update s.cons c .left }
  | giveEmpty (c : κ) : s.cons c = .left →
      Step B wr rd s { s with empty := s.empty + 1, cons := update s.cons c .idle }

/-- A step to a state that is given in another form. -/
theorem Step.of_eq {B : ℕ} {wr rd : μ} {s s' u : State ι κ μ α} (h : Step B wr rd s u)
    (heq : s' = u) : Step B wr rd s s' := heq ▸ h

end Steps

theorem State.update_prod_self [DecidableEq ι] (s : State ι κ μ α) (p : ι) :
    { s with prod := update s.prod p (s.prod p) } = s := by
  rw [Function.update_eq_self]

theorem State.update_cons_self [DecidableEq κ] (s : State ι κ μ α) (c : κ) :
    { s with cons := update s.cons c (s.cons c) } = s := by
  rw [Function.update_eq_self]

/-! ### Where the tokens are -/

section Ledger

variable [Fintype ι] [Fintype κ] [DecidableEq μ] {B : ℕ} {wr rd : μ} {s s' : State ι κ μ α}

/-- The books of the three kinds of semaphores. -/
structure Ledger (B : ℕ) (wr rd : μ) (s : State ι κ μ α) : Prop where
  filled : s.filled + tally Phase.pre s.cons + tally Phase.post s.prod + (loads s.trace).length
    = (stores s.trace).length
  empty : s.empty + tally Phase.pre s.prod + tally Phase.post s.cons + (stores s.trace).length
    = B + (loads s.trace).length
  lock : ∀ m, s.lock m + (if m = wr then tally Phase.inside s.prod else 0)
    + (if m = rd then tally Phase.inside s.cons else 0) = 1

theorem Initial.ledger (h : Initial B s) : Ledger B wr rd s where
  filled := by simp [h.filled, h.prod, h.cons, h.trace, tally_const]
  empty := by simp [h.empty, h.prod, h.cons, h.trace, tally_const]
  lock m := by simp [h.lock, h.prod, h.cons, tally_const]

namespace Ledger

/-- The books after a producer's move from phase `a` to phase `b`: what its own
weights change by is made up for by the semaphores and the trace. -/
theorem prodMove [DecidableEq ι] (hs : Ledger B wr rd s) {p : ι} {a b : Phase}
    (hp : s.prod p = a) (hprod : s'.prod = update s.prod p b) (hcons : s'.cons = s.cons)
    (hloads : loads s'.trace = loads s.trace)
    (hfilled : s'.filled + b.post + (stores s.trace).length
      = s.filled + a.post + (stores s'.trace).length)
    (hempty : s'.empty + b.pre + (stores s'.trace).length
      = s.empty + a.pre + (stores s.trace).length)
    (hlock : ∀ m, s'.lock m + (if m = wr then b.inside else 0)
      = s.lock m + (if m = wr then a.inside else 0)) : Ledger B wr rd s' := by
  obtain ⟨hn, he, hl⟩ := hs
  subst hp
  have h₁ := tally_update Phase.pre s.prod p b
  have h₂ := tally_update Phase.post s.prod p b
  have h₃ := tally_update Phase.inside s.prod p b
  refine ⟨?_, ?_, fun m => ?_⟩
  · rw [hprod, hcons, hloads]
    omega
  · rw [hprod, hcons, hloads]
    omega
  · have hm := hl m
    have hm' := hlock m
    rw [hprod, hcons]
    split_ifs at hm hm' ⊢ <;> omega

/-- The books after a consumer's move. -/
theorem consMove [DecidableEq κ] (hs : Ledger B wr rd s) {c : κ} {a b : Phase}
    (hc : s.cons c = a) (hcons : s'.cons = update s.cons c b) (hprod : s'.prod = s.prod)
    (hstores : stores s'.trace = stores s.trace)
    (hfilled : s'.filled + b.pre + (loads s'.trace).length
      = s.filled + a.pre + (loads s.trace).length)
    (hempty : s'.empty + b.post + (loads s.trace).length
      = s.empty + a.post + (loads s'.trace).length)
    (hlock : ∀ m, s'.lock m + (if m = rd then b.inside else 0)
      = s.lock m + (if m = rd then a.inside else 0)) : Ledger B wr rd s' := by
  obtain ⟨hn, he, hl⟩ := hs
  subst hc
  have h₁ := tally_update Phase.pre s.cons c b
  have h₂ := tally_update Phase.post s.cons c b
  have h₃ := tally_update Phase.inside s.cons c b
  refine ⟨?_, ?_, fun m => ?_⟩
  · rw [hprod, hcons, hstores]
    omega
  · rw [hprod, hcons, hstores]
    omega
  · have hm := hl m
    have hm' := hlock m
    rw [hprod, hcons]
    split_ifs at hm hm' ⊢ <;> omega

/-- Taking a mutex, as the books see it. -/
theorem lock_taken {lock : μ → ℕ} {w : μ} (hpos : 0 < lock w) (m : μ) :
    update lock w (lock w - 1) m + (if m = w then 1 else 0)
      = lock m + (if m = w then 0 else 0) := by
  by_cases hm : m = w
  · subst hm
    rw [Function.update_self, if_pos rfl, if_pos rfl]
    omega
  · rw [Function.update_of_ne hm, if_neg hm, if_neg hm]

/-- Releasing a mutex, as the books see it. -/
theorem lock_released {lock : μ → ℕ} {w : μ} (m : μ) :
    update lock w (lock w + 1) m + (if m = w then 0 else 0)
      = lock m + (if m = w then 1 else 0) := by
  by_cases hm : m = w
  · subst hm
    rw [Function.update_self, if_pos rfl, if_pos rfl]
  · rw [Function.update_of_ne hm, if_neg hm, if_neg hm]

/-- Every step keeps the books. -/
theorem step [DecidableEq ι] [DecidableEq κ] (hs : Ledger B wr rd s) (h : Step B wr rd s s') :
    Ledger B wr rd s' := by
  cases h with
  | claimEmpty p hp hpos =>
    exact hs.prodMove hp rfl rfl rfl rfl (by simp only [Phase.pre]; omega) fun _ => rfl
  | lockWrite p hp hpos => exact hs.prodMove hp rfl rfl rfl rfl rfl (lock_taken hpos)
  | fetchWrite p hp => exact hs.prodMove hp rfl rfl rfl rfl rfl fun _ => rfl
  | store p i v hp =>
    refine hs.prodMove hp rfl rfl (loads_append_store ..) ?_ ?_ fun _ => rfl <;>
      simp only [stores_append_store, List.length_append, List.length_singleton, Phase.pre,
        Phase.post] <;> omega
  | refetchWrite p hp => exact hs.prodMove hp rfl rfl rfl rfl rfl fun _ => rfl
  | advanceWrite p i hp => exact hs.prodMove hp rfl rfl rfl rfl rfl fun _ => rfl
  | unlockWrite p hp => exact hs.prodMove hp rfl rfl rfl rfl rfl lock_released
  | giveFilled p hp => exact hs.prodMove hp rfl rfl rfl rfl rfl fun _ => rfl
  | claimFilled c hc hpos =>
    exact hs.consMove hc rfl rfl rfl (by simp only [Phase.pre]; omega) rfl fun _ => rfl
  | lockRead c hc hpos => exact hs.consMove hc rfl rfl rfl rfl rfl (lock_taken hpos)
  | fetchRead c hc => exact hs.consMove hc rfl rfl rfl rfl rfl fun _ => rfl
  | load c i hc =>
    refine hs.consMove hc rfl rfl (stores_append_load ..) ?_ ?_ fun _ => rfl <;>
      simp only [loads_append_load, List.length_append, List.length_singleton, Phase.pre,
        Phase.post] <;> omega
  | refetchRead c hc => exact hs.consMove hc rfl rfl rfl rfl rfl fun _ => rfl
  | advanceRead c i hc => exact hs.consMove hc rfl rfl rfl rfl rfl fun _ => rfl
  | unlockRead c hc => exact hs.consMove hc rfl rfl rfl rfl rfl lock_released
  | giveEmpty c hc => exact hs.consMove hc rfl rfl rfl rfl rfl fun _ => rfl

theorem inside_prod_le (hs : Ledger B wr rd s) : tally Phase.inside s.prod ≤ 1 := by
  have := hs.lock wr
  rw [if_pos rfl] at this
  omega

theorem inside_cons_le (hs : Ledger B wr rd s) : tally Phase.inside s.cons ≤ 1 := by
  have := hs.lock rd
  rw [if_pos rfl] at this
  omega

/-- **At most one producer is in the producers' section.** -/
theorem prod_unique [DecidableEq ι] (hs : Ledger B wr rd s) {p q : ι}
    (hp : (s.prod p).inside = 1) (hq : (s.prod q).inside = 1) : p = q :=
  tally_sole hs.inside_prod_le hp hq

/-- **At most one consumer is in the consumers' section.** -/
theorem cons_unique [DecidableEq κ] (hs : Ledger B wr rd s) {c d : κ}
    (hc : (s.cons c).inside = 1) (hd : (s.cons d).inside = 1) : c = d :=
  tally_sole hs.inside_cons_le hc hd

theorem lag_prod [DecidableEq ι] (hs : Ledger B wr rd s) {p : ι}
    (hp : (s.prod p).inside = 1) : tally Phase.lag s.prod = (s.prod p).lag :=
  tally_eq_of_sole Phase.lag_eq_zero hs.inside_prod_le hp

theorem lag_cons [DecidableEq κ] (hs : Ledger B wr rd s) {c : κ}
    (hc : (s.cons c).inside = 1) : tally Phase.lag s.cons = (s.cons c).lag :=
  tally_eq_of_sole Phase.lag_eq_zero hs.inside_cons_le hc

/-- A producer on its way to a cell finds a free one. -/
theorem room (hs : Ledger B wr rd s) {p : ι} (hp : (s.prod p).pre = 1) :
    (stores s.trace).length < (loads s.trace).length + B := by
  have h₁ := le_tally Phase.pre s.prod p
  have h₂ := hs.empty
  omega

/-- A consumer on its way to a cell finds an unread one. -/
theorem unread (hs : Ledger B wr rd s) {c : κ} (hc : (s.cons c).pre = 1) :
    (loads s.trace).length < (stores s.trace).length := by
  have h₁ := le_tally Phase.pre s.cons c
  have h₂ := hs.filled
  omega

end Ledger

end Ledger

end SemRing
