/-
How the programs of `Lab05/src/03` end.

`produce` never waits, so it returns.  From then on `write_index` does not move, and `consume`
takes the cells from `read_index` up to it; then it waits for ever, unless the last cell of the
ring is the last one stored and `read_index` begins again at 0.

* `Ends` — what it takes for `consume` to return, at each program point; its own steps do not
  change it;
* `returns_or_spins` — under a fair schedule `produce` returns, and `consume` returns or spins for
  ever; which of the two is known when it begins an iteration.
-/
import SistemiDiCalcolo.LockFreeLoss
import SistemiDiCalcolo.LockFreeProgress
import SistemiDiCalcolo.Fairness

open Machine

namespace LockFree

variable {prm : Params} {B : ℕ} {s s' : State} {t : Process}

/-! ### `produce` -/

theorem writeIndex_lt (h : (program prm).Reachable s) : s.writeIndex < prm.bufferSize := by
  refine h.invariant (I := fun s => s.writeIndex < prm.bufferSize) ?_ ?_
  · rintro s rfl
    exact prm.bufferSize_pos
  · intro s t s' _ hs hstep
    cases t with
    | consume => exact (consume_frame hstep).2.1 ▸ hs
    | produce =>
      cases produce_step hstep with
      | advance i _ => exact Nat.mod_lt _ prm.bufferSize_pos
      | ended | value | testWrite | free | full | fetch | store | refetch | add => exact hs

/-- Every process has its turns. -/
theorem leadsTo_produced {e : (program prm).Execution} (hfair : e.Fair fun _ _ => False) :
    e.LeadsTo (fun _ => True) fun s => s.prod.pc = .done := by
  refine hfair.leadsTo (μ := fun s => s.prod.stepsLeft) (H := fun _ t => t = .produce) ?_
    (fun _ _ _ _ => ⟨.produce, rfl⟩) ?_
  · rintro s t u s' - - - rfl hstep
    cases u with
    | produce => exact .inr ⟨trivial, .inl (produce_stepsLeft hstep)⟩
    | consume =>
      have hsame : s'.prod.stepsLeft = s.prod.stepsLeft := by rw [(consume_frame hstep).1]
      exact .inr ⟨trivial, .inr ⟨hsame, nofun, rfl⟩⟩
  · rintro s t - - hne rfl
    exact ⟨fun hnone => hne (produce_eq_none hnone), id⟩

/-! ### `consume` -/

/-- The busy wait goes on: `write_index` is behind, and nobody moves it. -/
structure Spins (s : State) : Prop where
  prod : s.prod.pc = .done
  behind : s.writeIndex < s.readIndex
  pc : s.cons.pc = .waitWrite ∨ ∃ a, s.cons.pc = .waitRead a ∧ a < s.readIndex

/-- A bound on the steps that `consume` has yet to take unless it spins. -/
def stepsLeft (s : State) : ℕ :=
  match s.cons.pc with
  | .loop => 11 * s.cons.numOps + 1
  | .waitWrite => 11 * (s.cons.numOps - 1) + 8
  | .waitRead a => 11 * (s.cons.numOps - 1) + if a < s.readIndex then 9 else 7
  | .fetch => 11 * (s.cons.numOps - 1) + 6
  | .load _ => 11 * (s.cons.numOps - 1) + 5
  | .refetch => 11 * (s.cons.numOps - 1) + 4
  | .advance _ => 11 * (s.cons.numOps - 1) + 3
  | .add => 11 * (s.cons.numOps - 1) + 2
  | .done => 0

/-- Only the busy wait takes `consume` back. -/
theorem consume_stepsLeft (hprod : s.prod.pc = .done) (h : consume B s = some s') :
    Spins s' ∨ stepsLeft s' < stepsLeft s := by
  cases consume_step h with
  | waitWrite hpc =>
    by_cases hbehind : s.writeIndex < s.readIndex
    · exact .inl ⟨hprod, hbehind, .inr ⟨_, rfl, hbehind⟩⟩
    · right
      simp only [stepsLeft, hpc, if_neg hbehind]
      omega
  | waitAgain a hpc hbehind =>
    right
    simp only [stepsLeft, hpc, if_pos hbehind]
    omega
  | waitOver a hpc hle =>
    right
    simp only [stepsLeft, hpc, if_neg (Nat.not_lt.mpr hle)]
    omega
  | ended hpc hops | round hpc hops | fetch hpc | load i hpc | refetch hpc | advance i hpc
  | add hpc =>
    right
    simp only [stepsLeft, hpc]
    omega

/-- A process that spins spins on. -/
theorem Spins.step (hs : Spins s) (h : (program prm).step s t = some s') : Spins s' := by
  cases t with
  | produce =>
    have hstep : LockFree.produce prm.bufferSize s = some s' := h
    simp only [LockFree.produce, hs.prod] at hstep
    cases hstep
  | consume =>
    have hstep : LockFree.consume prm.bufferSize s = some s' := h
    obtain ⟨hprod, hbehind, hpc | ⟨a, hpc, ha⟩⟩ := hs
    · simp only [LockFree.consume, hpc] at hstep
      cases hstep
      exact ⟨hprod, hbehind, .inr ⟨_, rfl, hbehind⟩⟩
    · simp only [LockFree.consume, hpc, if_pos ha] at hstep
      cases hstep
      exact ⟨hprod, hbehind, .inl rfl⟩

theorem step_of_done (hprod : s.prod.pc = .done) (h : (program prm).step s t = some s') :
    t = .consume ∧ consume prm.bufferSize s = some s' := by
  cases t with
  | consume => exact ⟨rfl, h⟩
  | produce =>
    have hstep : LockFree.produce prm.bufferSize s = some s' := h
    simp only [LockFree.produce, hprod] at hstep
    cases hstep

/-- Once `produce` has returned, `consume` returns or spins. -/
theorem leadsTo_consumed {e : (program prm).Execution} (hfair : e.Fair fun _ _ => False) :
    e.LeadsTo (fun s => s.prod.pc = .done)
      fun s => s.prod.pc = .done ∧ s.cons.pc = .done ∨ Spins s := by
  refine hfair.leadsTo (μ := stepsLeft) (H := fun _ t => t = .consume) ?_
    (fun _ _ _ _ => ⟨.consume, rfl⟩) ?_
  · rintro s t u s' - hprod - rfl hstep
    obtain ⟨-, hconsume⟩ := step_of_done hprod hstep
    have hprod' : s'.prod.pc = .done := (consume_frame hconsume).1 ▸ hprod
    rcases consume_stepsLeft hprod hconsume with hspins | hlt
    · exact .inl (.inr hspins)
    · exact .inr ⟨hprod', .inl hlt⟩
  · rintro s t - hprod hne rfl
    exact ⟨fun hnone => hne (.inl ⟨hprod, consume_eq_none hnone⟩), id⟩

/-! ### Which of the two -/

/-- `produce` has returned, and what the registers of `consume` hold is up to date. -/
structure Settled (s : State) : Prop where
  prod : s.prod.pc = .done
  cons : match s.cons.pc with
    | .loop | .done => True
    | .waitWrite | .add => 0 < s.cons.numOps
    | .waitRead a => 0 < s.cons.numOps ∧ a = s.writeIndex
    | .fetch | .refetch => 0 < s.cons.numOps ∧ s.readIndex ≤ s.writeIndex
    | .load i | .advance i =>
      0 < s.cons.numOps ∧ s.readIndex ≤ s.writeIndex ∧ i = s.readIndex

/-- The cells that are left to load, up to `write_index`, are enough for `n` operations, or the
index will wrap around to 0. -/
def Enough (B : ℕ) (s : State) (n : ℕ) : Prop :=
  s.writeIndex + 1 = B ∨ n ≤ s.writeIndex + 1 - s.readIndex

/-- `consume` is going to return. -/
def Ends (B : ℕ) (s : State) : Prop :=
  match s.cons.pc with
  | .done => True
  | .add => Enough B s (s.cons.numOps - 1)
  | .loop | .waitWrite | .waitRead _ | .fetch | .load _ | .refetch | .advance _ =>
    Enough B s s.cons.numOps

/-- A step decides nothing. -/
theorem Settled.step (hs : Settled s) (hwrite : s.writeIndex < B) (h : consume B s = some s') :
    Settled s' ∧ (Ends B s' ↔ Ends B s) := by
  obtain ⟨hprod, hcons⟩ := hs
  cases consume_step h with
  | ended hpc hops =>
    refine ⟨⟨hprod, trivial⟩, ?_⟩
    simp only [Ends, Enough, hpc, true_iff]
    omega
  | round hpc hops =>
    refine ⟨⟨hprod, hops⟩, ?_⟩
    simp only [Ends, Enough, hpc]
  | waitWrite hpc =>
    simp only [hpc] at hcons
    refine ⟨⟨hprod, hcons, rfl⟩, ?_⟩
    simp only [Ends, Enough, hpc]
  | waitAgain a hpc _ =>
    simp only [hpc] at hcons
    refine ⟨⟨hprod, hcons.1⟩, ?_⟩
    simp only [Ends, Enough, hpc]
  | waitOver a hpc hle =>
    simp only [hpc] at hcons
    refine ⟨⟨hprod, hcons.1, hcons.2 ▸ hle⟩, ?_⟩
    simp only [Ends, Enough, hpc]
  | fetch hpc | refetch hpc =>
    simp only [hpc] at hcons
    refine ⟨⟨hprod, hcons.1, hcons.2, rfl⟩, ?_⟩
    simp only [Ends, Enough, hpc]
  | load i hpc =>
    simp only [hpc] at hcons
    refine ⟨⟨hprod, hcons.1, hcons.2.1⟩, ?_⟩
    simp only [Ends, Enough, hpc]
  | advance i hpc =>
    simp only [hpc] at hcons
    obtain ⟨hops, hle, rfl⟩ := hcons
    refine ⟨⟨hprod, hops⟩, ?_⟩
    simp only [Ends, Enough, hpc]
    -- below the last cell the index does not wrap around
    rcases Nat.lt_or_eq_of_le (Nat.succ_le_of_lt hwrite) with hlt | heq
    · rw [Nat.mod_eq_of_lt (by omega)]
      omega
    · exact iff_of_true (.inl heq) (.inl heq)
  | add hpc =>
    refine ⟨⟨hprod, trivial⟩, ?_⟩
    simp only [Ends, Enough, hpc]

/-- Who spins does not end. -/
theorem Spins.not_ends (hs : Spins s) (hsettled : Settled s) (hread : s.readIndex < B) :
    ¬ Ends B s := by
  obtain ⟨-, hcons⟩ := hsettled
  have hbehind := hs.behind
  rcases hs.pc with hpc | ⟨a, hpc, -⟩
  · simp only [hpc] at hcons
    simp only [Ends, Enough, hpc]
    omega
  · simp only [hpc] at hcons
    simp only [Ends, Enough, hpc]
    omega

theorem settled_state {e : (program prm).Execution} {n : ℕ} (hs : Settled (e.state n)) (k : ℕ) :
    Settled (e.state (n + k)) ∧
      (Ends prm.bufferSize (e.state (n + k)) ↔ Ends prm.bufferSize (e.state n)) := by
  induction k with
  | zero => exact ⟨hs, Iff.rfl⟩
  | succ k ih =>
    rw [← Nat.add_assoc]
    cases h : (program prm).step (e.state (n + k)) (e.agent (n + k)) with
    | none =>
      rw [Execution.next_of_none h]
      exact ih
    | some s =>
      rw [Execution.next_of_some h]
      obtain ⟨-, hconsume⟩ := step_of_done ih.1.prod h
      obtain ⟨hnext, hends⟩ := ih.1.step (writeIndex_lt (e.reachable _)) hconsume
      exact ⟨hnext, hends.trans ih.2⟩

theorem spins_state {e : (program prm).Execution} {n : ℕ} (hs : Spins (e.state n)) (k : ℕ) :
    Spins (e.state (n + k)) := by
  induction k with
  | zero => exact hs
  | succ k ih =>
    rw [← Nat.add_assoc]
    cases h : (program prm).step (e.state (n + k)) (e.agent (n + k)) with
    | none =>
      rw [Execution.next_of_none h]
      exact ih
    | some s =>
      rw [Execution.next_of_some h]
      exact ih.step h

/-- **How the two programs end**: when each process has its turns again and again, `produce`
returns and then `consume` returns or spins for ever.  If `consume` begins an iteration after the
return of `produce`, it returns if and only if the cells from `read_index` to `write_index` are
enough for its operations, or `write_index` is the last cell. -/
theorem returns_or_spins (prm : Params) (e : (program prm).Execution)
    (hfair : e.Fair fun _ _ => False) :
    (∃ n, (e.state n).prod.pc = .done ∧
      ((e.state n).cons.pc = .done ∨ ∀ k, Spins (e.state (n + k)))) ∧
    ∀ n, (e.state n).prod.pc = .done → (e.state n).cons.pc = .loop →
      ((∃ k, (e.state (n + k)).cons.pc = .done) ↔
        (e.state n).writeIndex + 1 = prm.bufferSize ∨
          (e.state n).cons.numOps ≤ (e.state n).writeIndex + 1 - (e.state n).readIndex) := by
  constructor
  · obtain ⟨n, -, hn⟩ := (leadsTo_produced hfair).trans (leadsTo_consumed hfair) 0 trivial
    rcases hn with ⟨hprod, hcons⟩ | hspins
    · exact ⟨n, hprod, .inl hcons⟩
    · exact ⟨n, hspins.prod, .inr (spins_state hspins)⟩
  · intro n hprod hpc
    have hsettled : Settled (e.state n) := ⟨hprod, by rw [hpc]; trivial⟩
    have hends : Ends prm.bufferSize (e.state n) ↔
        Enough prm.bufferSize (e.state n) (e.state n).cons.numOps := by
      rw [Ends, hpc]
    refine Iff.trans ⟨?_, fun h => ?_⟩ hends
    · rintro ⟨k, hdone⟩
      refine (settled_state hsettled k).2.mp ?_
      rw [Ends, hdone]
      trivial
    · obtain ⟨m, hnm, hm⟩ := leadsTo_consumed hfair n hprod
      obtain ⟨k, rfl⟩ := Nat.exists_eq_add_of_le hnm
      obtain ⟨hsettled', hsame⟩ := settled_state hsettled k
      rcases hm with ⟨-, hdone⟩ | hspins
      · exact ⟨k, hdone⟩
      · exact absurd (hsame.mpr h) (hspins.not_ends hsettled' (readIndex_lt (e.reachable _)))

/-- Both processes, one after the other. -/
def agents : List Process := [.produce, .consume]

theorem agents_pos : 0 < agents.length := Nat.two_pos

/-- Nothing is produced, and two values are to be consumed. -/
def nothing : Params := ⟨4, Nat.succ_pos 3, [], 2, 0⟩

/-- The first is loaded from the empty ring, and the second waited for. -/
theorem returns_or_spins_nothing : ¬ ∃ k, ((program nothing).states (initMemory nothing)
    (cycle agents agents_pos) (1 + k)).cons.pc = .done := by
  intro h
  have hfair : (execution (M := program nothing) rfl (cycle agents agents_pos)).Fair
      fun _ _ => False := fair_cycle fun t => by cases t <;> simp [agents]
  have henough := ((returns_or_spins nothing _ hfair).2 1 rfl rfl).mp h
  exact absurd henough (by decide)

end LockFree
