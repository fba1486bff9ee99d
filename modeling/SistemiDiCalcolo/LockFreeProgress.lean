/-
When the two tests of `Lab05/src/03` leave one of the sides able to move.

`produce` stores unless `(write_index+1) % BUFFER_SIZE` is `read_index`, and
`consume` loads unless `write_index < read_index`.  Both refuse when
`read_index` is `write_index+1`: after a load from the empty ring, or when the
ring is full and `read_index` is not 0.

* `canMove_of_numOps` — no such state if `consume` has at most one operation;
* `exists_not_canMove` — with two, its load from the empty ring gives one;
* `Slack`, `Counts.canMove` — no such state in the runs that avoid both causes;
* `progress_iff` — the two together.
-/
import SistemiDiCalcolo.LockFreeRing

namespace LockFree

/-- With both processes at the top of their loops and something left to do,
`produce` can store or `consume` can load. -/
def CanMove (B : ℕ) (s : State) : Prop :=
  s.prod.pc = .loop → s.prod.ops ≠ [] → s.cons.pc = .loop → 0 < s.cons.numOps →
    (s.writeIndex + 1) % B ≠ s.readIndex ∨ ¬ s.writeIndex < s.readIndex

theorem canMove_of_readIndex {B : ℕ} {s : State} (h : s.readIndex = 0) : CanMove B s :=
  fun _ _ _ _ => .inr (by omega)

section AllRuns

variable {prm : Params} {s : State}

/-! ### All runs -/

theorem readIndex_lt (h : (program prm).Reachable s) : s.readIndex < prm.bufferSize := by
  refine h.invariant (I := fun s => s.readIndex < prm.bufferSize) ?_ ?_
  · rintro s rfl
    exact prm.bufferSize_pos
  · intro s t s' _ hs hstep
    cases t with
    | produce => exact (produce_frame hstep).2.1 ▸ hs
    | consume =>
      cases consume_step hstep with
      | advance i _ => exact Nat.mod_lt _ prm.bufferSize_pos
      | ended | round | waitWrite | waitAgain | waitOver | fetch | load | refetch | add => exact hs

theorem ops_eq_nil (hvalues : prm.values = []) (h : (program prm).Reachable s) :
    s.prod.ops = [] := by
  refine h.invariant (I := fun s => s.prod.ops = []) ?_ ?_
  · rintro s rfl
    exact hvalues
  · intro s t s' _ hs hstep
    cases t with
    | produce =>
      cases produce_step hstep with
      | value v rest _ hops => exact absurd (hops.symm.trans hs) (List.cons_ne_nil v rest)
      | add _ => exact congrArg List.tail hs
      | ended | testWrite | free | full | fetch | store | refetch | advance => exact hs
    | consume => exact (consume_frame hstep).1 ▸ hs

/-- A `consume` with at most one operation has not moved `read_index` before it
is through with it. -/
structure FirstRound (s : State) : Prop where
  numOps : s.cons.numOps ≤ 1
  read : 0 < s.cons.numOps → s.cons.pc ≠ .add → s.readIndex = 0

theorem firstRound (hops : prm.numOps ≤ 1) (h : (program prm).Reachable s) : FirstRound s := by
  refine h.invariant (I := FirstRound) ?_ ?_
  · rintro s rfl
    exact ⟨hops, fun _ _ => rfl⟩
  · rintro s t s' _ ⟨hnum, hread⟩ hstep
    cases t with
    | produce =>
      obtain ⟨hcons, hindex, -⟩ := produce_frame hstep
      exact ⟨hcons ▸ hnum, fun hpos hadd => hindex ▸ hread (hcons ▸ hpos) (hcons ▸ hadd)⟩
    | consume =>
      cases consume_step hstep with
      | add _ =>
        refine ⟨?_, fun hpos _ => ?_⟩
        · show s.cons.numOps - 1 ≤ 1
          omega
        · have : 0 < s.cons.numOps - 1 := hpos
          omega
      | advance i _ => exact ⟨hnum, fun _ hadd => absurd rfl hadd⟩
      | ended hpc _ | round hpc _ | waitWrite hpc | waitAgain a hpc _ | waitOver a hpc _ | fetch hpc
      | load i hpc | refetch hpc =>
        exact ⟨hnum, fun hpos _ => hread hpos (by simp [hpc])⟩

theorem canMove_of_numOps (hops : prm.numOps ≤ 1) (h : (program prm).Reachable s) :
    CanMove prm.bufferSize s := by
  intro hprod hvalues hcons hpos
  refine canMove_of_readIndex ?_ hprod hvalues hcons hpos
  exact (firstRound hops h).read hpos (by rw [hcons]; simp)

/-- After one load from the empty ring `read_index` is ahead. -/
theorem exists_not_canMove (hB : prm.bufferSize ≠ 1) (hvalues : prm.values ≠ [])
    (hops : 1 < prm.numOps) :
    ∃ s, (program prm).Reachable s ∧ ¬ CanMove prm.bufferSize s := by
  have hB' := prm.bufferSize_pos
  have hone : (0 + 1) % prm.bufferSize = 1 := Nat.mod_eq_of_lt (by omega)
  refine ⟨_, (Machine.Reachable.init rfl).run
    (run_consumer_round rfl (Nat.zero_lt_of_lt hops) rfl), fun h => ?_⟩
  rcases h rfl hvalues rfl (Nat.sub_pos_of_lt hops) with hfull | hspin
  · exact hfull rfl
  · refine hspin ?_
    show 0 < (0 + 1) % prm.bufferSize
    rw [hone]
    exact Nat.one_pos

end AllRuns

/-! ### The runs that avoid both causes -/

/-- The step is not a test of `produce` that would take the last free cell while
`read_index` is not 0. -/
def SpareCell (B : ℕ) (s : State) (t : Process) : Prop :=
  t = .produce → ∀ a, s.prod.pc = .testRead a → s.readIndex = 0 ∨ (a + 2) % B ≠ s.readIndex

/-- The ring is full only while `read_index` is 0. -/
def Slack (B : ℕ) (s : State) (W R : ℕ) : Prop :=
  W + s.prod.pc.claim + 1 = R + B → R % B = 0

section Slack

variable {B W W' R R' : ℕ} {s s' : State}

/-- With a full ring `write_index` is wrapped only if `read_index` is not 0. -/
theorem Counts.canMove (hs : Counts B s W R) (hslack : Slack B s W R) : CanMove B s := by
  intro hprod _ _ _
  by_contra hstop
  obtain ⟨hfull, hspin⟩ := not_or.mp hstop
  rw [not_not] at hfull hspin
  rw [hs.write, hs.read, Nat.mod_add_mod] at hfull
  have hroom := hs.room
  have hunread := hs.unread
  rw [Slack] at hslack
  rw [hprod] at hroom hslack
  simp only [ProducerPc.claim, Nat.add_zero] at hroom hslack
  by_cases hlast : W + 1 = R + B
  · rw [hs.write, hs.read, hslack hlast] at hspin
    omega
  · exact mod_ne_mod (by omega) (by omega) hfull.symm

theorem Slack.produce (hslack : Slack B s W R) (hs : Counts B s W R) (hs' : Counts B s' W' R)
    (hok : SpareCell B s .produce) (h : produce B s = some s') : Slack B s' W' R := by
  have hlen := hs.stored
  have hlen' := hs'.stored
  rw [Slack] at hslack ⊢
  cases produce_step h with
  | free a hpc _ =>
    obtain rfl := hs.prodReg a (by rw [hpc]; rfl)
    rw [hpc] at hlen
    simp only [ProducerPc.lag, ProducerPc.claim] at hlen hlen' ⊢
    intro hlast
    -- the test has claimed the last free cell
    rcases hok rfl _ hpc with hzero | hspare
    · rw [← hs.read, hzero]
    · refine absurd ?_ hspare
      rw [hs.write, hs.read, Nat.mod_add_mod, show W + 2 = R + B by omega, Nat.add_mod_right]
  | ended hpc _ | value v rest hpc _ | testWrite hpc | full a hpc _ | fetch hpc | store i hpc
  | refetch hpc | advance i hpc | add hpc =>
    rw [hpc] at hlen hslack
    simp only [ProducerPc.lag, ProducerPc.claim, List.length_append, List.length_singleton]
      at hlen hlen' hslack ⊢
    exact fun hlast => hslack (by omega)

theorem Slack.consume (hslack : Slack B s W R) (hs : Counts B s W R) (hs' : Counts B s' W R')
    (h : consume B s = some s') : Slack B s' W R' := by
  have hlen := hs.loaded
  have hlen' := hs'.loaded
  rw [Slack] at hslack ⊢
  cases consume_step h with
  | advance i hpc =>
    -- the ring is not full any more
    rw [hpc] at hlen
    simp only [ConsumerPc.lag] at hlen hlen'
    intro (hlast : W + s.prod.pc.claim + 1 = R' + B)
    have hroom := hs.room
    omega
  | ended hpc _ | round hpc _ | waitWrite hpc | waitAgain a hpc _ | waitOver a hpc _ | fetch hpc
  | load i hpc | refetch hpc | add hpc =>
    rw [hpc] at hlen
    simp only [ConsumerPc.lag, List.length_append, List.length_singleton] at hlen hlen'
    obtain rfl : R' = R := by omega
    exact hslack

theorem slack {prm : Params}
    (h : (program prm).ReachableVia (fun s t => NotEqual s t ∧ SpareCell prm.bufferSize s t) s) :
    ∃ W R, Counts prm.bufferSize s W R ∧ Slack prm.bufferSize s W R := by
  refine h.invariant
    (I := fun s => ∃ W R, Counts prm.bufferSize s W R ∧ Slack prm.bufferSize s W R) ?_ ?_
  · rintro s rfl
    exact ⟨0, 0, initMemory_counts prm, fun _ => Nat.zero_mod _⟩
  · rintro s t s' ⟨W, R, hs, hslack⟩ ⟨hne, hspare⟩ hstep
    cases t with
    | produce =>
      obtain ⟨W', hs'⟩ := hs.produce hstep
      exact ⟨W', R, hs', hslack.produce hs hs' hspare hstep⟩
    | consume =>
      obtain ⟨R', hs'⟩ := hs.consume hne hstep
      exact ⟨W, R', hs', hslack.consume hs hs' hstep⟩

end Slack

/-- **One of the sides can always move**: in all interleavings exactly when the
ring has one cell, `produce` has nothing to do or `consume` has at most one
operation, and in every run in which `consume` does not compare equal indexes
and `produce` does not fill the ring while `read_index` is not 0. -/
theorem progress_iff (prm : Params) :
    ((∀ s, (program prm).Reachable s → CanMove prm.bufferSize s) ↔
      prm.bufferSize = 1 ∨ prm.values = [] ∨ prm.numOps ≤ 1) ∧
    ∀ s, (program prm).ReachableVia
      (fun s t => NotEqual s t ∧ SpareCell prm.bufferSize s t) s → CanMove prm.bufferSize s := by
  refine ⟨⟨fun h => ?_, ?_⟩, fun s hs => ?_⟩
  · by_contra hcond
    simp only [not_or, not_le] at hcond
    obtain ⟨s, hs, hbad⟩ := exists_not_canMove hcond.1 hcond.2.1 hcond.2.2
    exact hbad (h s hs)
  · rintro (hB | hvalues | hops) s hs
    · have := readIndex_lt hs
      exact canMove_of_readIndex (by omega)
    · exact fun _ hne => absurd (ops_eq_nil hvalues hs) hne
    · exact canMove_of_numOps hops hs
  · obtain ⟨W, R, hcounts, hslack⟩ := slack hs
    exact hcounts.canMove hslack

/-- `consume` loads from the empty ring, and then both tests refuse. -/
theorem sizes_both_refuse : ¬ ∀ s, (program sizes).Reachable s → CanMove 128 s := by
  intro h
  obtain ⟨s, hs, hbad⟩ : ∃ s, (program sizes).Reachable s ∧ ¬ CanMove 128 s :=
    exists_not_canMove (by decide) (List.cons_ne_nil _ _) (by decide)
  exact hbad (h s hs)

end LockFree
