/-
The ring of `Lab05/src/03`: what its index tests do and do not ensure.

`consume` leaves its busy wait when the two indexes are equal, which is how they
stand when the ring is empty.  In the runs in which it never compares equal
indexes the ring is a queue:

* `Counts` — the indexes are the numbers of stores and loads modulo
  `BUFFER_SIZE`, the loads never overtake the stores, and the stores stay less
  than `BUFFER_SIZE` ahead;
* `ordered_iff` — the values loaded are those stored, in order: in those runs,
  and in all runs only if `consume` has nothing to do.
-/
import SistemiDiCalcolo.LockFree
import SistemiDiCalcolo.BoundedFifo

open Function (update)

namespace LockFree

namespace ProducerPc

/-- The value is in the buffer, and the index has not moved yet. -/
@[simp] def lag : ProducerPc → ℕ
  | refetch | advance _ => 1
  | _ => 0

/-- The test has found a free cell, and the index has not moved yet. -/
@[simp] def claim : ProducerPc → ℕ
  | fetch | store _ | refetch | advance _ => 1
  | _ => 0

/-- The register, which holds `write_index`. -/
@[simp] def register : ProducerPc → Option ℕ
  | testRead i | store i | advance i => some i
  | _ => none

end ProducerPc

namespace ConsumerPc

@[simp] def lag : ConsumerPc → ℕ
  | refetch | advance _ => 1
  | _ => 0

/-- The wait is over, and the index has not moved yet. -/
@[simp] def claim : ConsumerPc → ℕ
  | fetch | load _ | refetch | advance _ => 1
  | _ => 0

/-- The register, when it holds `read_index`. -/
@[simp] def register : ConsumerPc → Option ℕ
  | load i | advance i => some i
  | _ => none

end ConsumerPc

/-! ### A queue, as long as the wait does not end on equal indexes -/

/-- The step does not compare equal indexes in the wait of `consume`. -/
def NotEqual (s : State) (t : Process) : Prop :=
  t = .consume → ∀ a, s.cons.pc = .waitRead a → a ≠ s.readIndex

/-- With `W` values written and `R` read, as far as the indexes tell. -/
structure Counts (B : ℕ) (s : State) (W R : ℕ) : Prop where
  write : s.writeIndex = W % B
  read : s.readIndex = R % B
  stored : s.stored.length = W + s.prod.pc.lag
  loaded : s.loaded.length = R + s.cons.pc.lag
  room : W + s.prod.pc.claim + 1 ≤ R + B
  unread : R + s.cons.pc.claim ≤ W
  prodReg : ∀ i, s.prod.pc.register = some i → i = s.writeIndex
  consReg : ∀ i, s.cons.pc.register = some i → i = s.readIndex
  wait : ∀ a, s.cons.pc = .waitRead a → ∃ k, R ≤ k ∧ k ≤ W ∧ a = k % B
  cell : ∀ k, R ≤ k → k < s.stored.length → s.stored[k]? = some (s.buf (k % B))
  fifo : s.loaded <+: s.stored

section Counts

variable {B W R : ℕ} {s s' : State}

theorem initMemory_counts (prm : Params) : Counts prm.bufferSize (initMemory prm) 0 0 where
  write := (Nat.zero_mod _).symm
  read := (Nat.zero_mod _).symm
  stored := rfl
  loaded := rfl
  room := by
    have := prm.bufferSize_pos
    simp only [initMemory, ProducerPc.claim]
    omega
  unread := le_rfl
  prodReg i h := by cases h
  consReg i h := by cases h
  wait a h := by cases h
  cell k _ h := by cases h
  fifo := List.prefix_rfl

/-- A step of `produce` that touches no shared variable. -/
theorem Counts.prodMove (hs : Counts B s W R) {t : Producer}
    (hlag : t.pc.lag = s.prod.pc.lag) (hroom : W + t.pc.claim + 1 ≤ R + B)
    (hreg : ∀ i, t.pc.register = some i → i = s.writeIndex) :
    Counts B { s with prod := t } W R :=
  { hs with
    stored := by rw [hs.stored, hlag]
    room := hroom
    prodReg := hreg }

/-- A step of `consume` that touches no shared variable. -/
theorem Counts.consMove (hs : Counts B s W R) {t : Consumer}
    (hlag : t.pc.lag = s.cons.pc.lag) (hunread : R + t.pc.claim ≤ W)
    (hreg : ∀ i, t.pc.register = some i → i = s.readIndex)
    (hwait : ∀ a, t.pc = .waitRead a → ∃ k, R ≤ k ∧ k ≤ W ∧ a = k % B) :
    Counts B { s with cons := t } W R :=
  { hs with
    loaded := by rw [hs.loaded, hlag]
    unread := hunread
    consReg := hreg
    wait := hwait }

/-- The test of `produce` finds a free cell only if one is left after it. -/
theorem Counts.room_of_test (hs : Counts B s W R)
    (htest : (s.writeIndex + 1) % B ≠ s.readIndex) : W + 2 ≤ R + B := by
  have hroom := hs.room
  by_contra hfull
  have heq : W + 1 = R + B := by omega
  apply htest
  rw [hs.write, hs.read, Nat.mod_add_mod, heq, Nat.add_mod_right]

/-- Every step of `produce` keeps the counts. -/
theorem Counts.produce (hs : Counts B s W R) (h : produce B s = some s') :
    ∃ W', Counts B s' W' R := by
  have hroom := hs.room
  cases produce_step h with
  | ended hpc _ | value v rest hpc _ | testWrite hpc | full a hpc _ | fetch hpc | refetch hpc
  | add hpc =>
    rw [hpc] at hroom
    exact ⟨W, hs.prodMove (by rw [hpc]; rfl) hroom (by simp)⟩
  | free a hpc htest =>
    obtain rfl := hs.prodReg a (by rw [hpc]; rfl)
    exact ⟨W, hs.prodMove (by rw [hpc]; rfl) (hs.room_of_test htest) (by simp)⟩
  | store i hpc =>
    obtain rfl := hs.prodReg i (by rw [hpc]; rfl)
    rw [hpc] at hroom
    have hlen : s.stored.length = W := by rw [hs.stored, hpc]; rfl
    refine ⟨W, { hs with
      stored := ?_, room := hroom, prodReg := by simp, cell := ?_, fifo := ?_ }⟩
    · rw [List.length_append, hlen]
      rfl
    · intro k hk hk'
      rw [List.length_append, List.length_singleton, hlen] at hk'
      show (s.stored ++ [s.prod.value])[k]? = some (update s.buf s.writeIndex s.prod.value (k % B))
      -- the unread values are fewer than `B`, so none of them is in this cell
      by_cases hlast : k = W
      · rw [hlast, List.getElem?_append_right hlen.le, hlen, Nat.sub_self, ← hs.write,
          Function.update_self]
        rfl
      · simp only [ProducerPc.claim] at hroom
        rw [List.getElem?_append_left (by omega), hs.write,
          Function.update_of_ne (mod_ne_mod (by omega) (by omega))]
        exact hs.cell k hk (by omega)
    · exact hs.fifo.trans (List.prefix_append _ _)
  | advance i hpc =>
    obtain rfl := hs.prodReg i (by rw [hpc]; rfl)
    have hstored := hs.stored
    rw [hpc] at hstored hroom
    refine ⟨W + 1, { hs with
      write := ?_, stored := hstored, room := hroom, unread := Nat.le_succ_of_le hs.unread,
      prodReg := by simp, wait := fun a ha => ?_ }⟩
    · rw [hs.write, Nat.mod_add_mod]
    · obtain ⟨k, hk, hk', hka⟩ := hs.wait a ha
      exact ⟨k, hk, by omega, hka⟩

/-- Every step of `consume` that does not compare equal indexes keeps the
counts. -/
theorem Counts.consume (hs : Counts B s W R) (hok : NotEqual s .consume)
    (h : consume B s = some s') : ∃ R', Counts B s' W R' := by
  have hunread := hs.unread
  cases consume_step h with
  | ended hpc _ | round hpc _ | waitAgain a hpc _ | fetch hpc | refetch hpc | add hpc =>
    rw [hpc] at hunread
    exact ⟨R, hs.consMove (by rw [hpc]; rfl) hunread (by simp) (by simp)⟩
  | waitWrite hpc =>
    rw [hpc] at hunread
    refine ⟨R, hs.consMove (by rw [hpc]; rfl) hunread (by simp) fun a ha => ?_⟩
    obtain rfl : s.writeIndex = a := by simpa using ha
    exact ⟨W, hunread, le_rfl, hs.write⟩
  | waitOver a hpc _ =>
    -- the index compared was that of a count past `R`
    obtain ⟨k, hk, hk', hka⟩ := hs.wait a hpc
    have hne : k ≠ R := by
      rintro rfl
      exact hok rfl a hpc (hka.trans hs.read.symm)
    refine ⟨R, hs.consMove (by rw [hpc]; rfl) ?_ (by simp) (by simp)⟩
    simp only [ConsumerPc.claim]
    omega
  | load i hpc =>
    obtain rfl := hs.consReg i (by rw [hpc]; rfl)
    have hloaded : s.loaded.length = R := by rw [hs.loaded, hpc]; rfl
    have hstored := hs.stored
    rw [hpc] at hunread
    simp only [ConsumerPc.claim] at hunread
    refine ⟨R, { hs with
      loaded := ?_, unread := hunread, consReg := by simp, wait := by simp, fifo := ?_ }⟩
    · rw [List.length_append, hloaded]
      rfl
    · refine prefix_concat_of_getElem? hs.fifo ?_
      rw [hloaded, hs.read]
      exact hs.cell R le_rfl (by omega)
  | advance i hpc =>
    obtain rfl := hs.consReg i (by rw [hpc]; rfl)
    have hloaded := hs.loaded
    rw [hpc] at hloaded hunread
    refine ⟨R + 1, { hs with
      read := ?_, loaded := hloaded, room := hs.room.trans (by omega), unread := hunread,
      consReg := by simp, wait := by simp, cell := fun k hk => hs.cell k (by omega) }⟩
    rw [hs.read, Nat.mod_add_mod]

/-- The counts exist in every state of a run that compares no equal indexes. -/
theorem counts {prm : Params} (h : (program prm).ReachableVia NotEqual s) :
    ∃ W R, Counts prm.bufferSize s W R := by
  refine h.invariant (I := fun s => ∃ W R, Counts prm.bufferSize s W R) ?_ ?_
  · rintro s rfl
    exact ⟨0, 0, initMemory_counts prm⟩
  · rintro s t s' ⟨W, R, hs⟩ hok hstep
    cases t with
    | produce =>
      obtain ⟨W', hs'⟩ := hs.produce hstep
      exact ⟨W', R, hs'⟩
    | consume =>
      obtain ⟨R', hs'⟩ := hs.consume hok hstep
      exact ⟨W, R', hs'⟩

end Counts

/-! ### The values loaded are those stored -/

/-- The values loaded are a prefix of those stored, and `consume` is not about
to load when there is none left. -/
structure Ordered (s : State) : Prop where
  fifo : s.loaded <+: s.stored
  unread : ∀ i, s.cons.pc = .load i → s.loaded.length < s.stored.length

theorem Counts.ordered {B W R : ℕ} {s : State} (hs : Counts B s W R) : Ordered s where
  fifo := hs.fifo
  unread i hpc := by
    have hloaded := hs.loaded
    have hunread := hs.unread
    have hstored := hs.stored
    rw [hpc] at hloaded hunread
    simp only [ConsumerPc.lag, ConsumerPc.claim] at hloaded hunread
    omega

/-- A `consume` with nothing to do loads nothing. -/
structure Inactive (s : State) : Prop where
  pc : s.cons.pc = .loop ∨ s.cons.pc = .done
  numOps : s.cons.numOps = 0
  loaded : s.loaded = []

theorem Inactive.ordered {s : State} (h : Inactive s) : Ordered s where
  fifo := h.loaded ▸ List.nil_prefix
  unread i hpc := by rcases h.pc with hpc' | hpc' <;> rw [hpc] at hpc' <;> cases hpc'

theorem inactive {prm : Params} {s : State} (hops : prm.numOps = 0)
    (h : (program prm).Reachable s) : Inactive s := by
  refine h.invariant (I := Inactive) ?_ ?_
  · rintro s rfl
    exact ⟨.inl rfl, hops, rfl⟩
  · rintro s t s' _ ⟨hpc, hnum, hloaded⟩ hstep
    cases t with
    | produce =>
      obtain ⟨hcons, -, hloaded'⟩ := produce_frame hstep
      exact ⟨hcons ▸ hpc, hcons ▸ hnum, hloaded'.trans hloaded⟩
    | consume =>
      have hidle : s.cons.pc ∈ [.loop, .done] := by simpa using hpc
      cases consume_step hstep with
      | ended _ _ => exact ⟨.inr rfl, hnum, hloaded⟩
      | round _ hpos => exact absurd hnum hpos.ne'
      | waitWrite hpc' | waitAgain a hpc' _ | waitOver a hpc' _ | fetch hpc' | load i hpc'
      | refetch hpc' | advance i hpc' | add hpc' =>
        simp [hpc'] at hidle

/-- One whole round of `consume` on an empty ring: both indexes are equal, and
the wait is over at once. -/
theorem run_consumer_round {prm : Params} {s : State} {n : ℕ} {x y : CInt}
    (hc : s.cons = ⟨.loop, n, x, y⟩) (hn : 0 < n) (heq : s.writeIndex = s.readIndex) :
    (program prm).run s (List.replicate 8 .consume) = some
      { s with
        readIndex := (s.readIndex + 1) % prm.bufferSize
        cons := ⟨.loop, n - 1, s.buf s.readIndex, y + s.buf s.readIndex⟩
        loaded := s.loaded ++ [s.buf s.readIndex] } := by
  simp [List.replicate, Machine.run, program, processStep, consume, hc, hn, heq]

/-- A `consume` with something to do can load before anything is stored. -/
theorem exists_not_ordered {prm : Params} (hops : 0 < prm.numOps) :
    ∃ s, (program prm).Reachable s ∧ ¬ Ordered s := by
  refine ⟨_, (Machine.Reachable.init rfl).run (run_consumer_round rfl hops rfl), fun h => ?_⟩
  have := h.fifo.length_le
  simp [initMemory] at this

/-- **The values loaded are those stored, in order**: in all interleavings
exactly when `consume` has nothing to do, and in every run in which `consume`
does not compare equal indexes. -/
theorem ordered_iff (prm : Params) :
    ((∀ s, (program prm).Reachable s → Ordered s) ↔ prm.numOps = 0) ∧
      ∀ s, (program prm).ReachableVia NotEqual s → Ordered s := by
  refine ⟨⟨fun h => ?_, fun hops s hs => (inactive hops hs).ordered⟩, fun s hs => ?_⟩
  · by_contra hops
    obtain ⟨s, hs, hbad⟩ := exists_not_ordered (Nat.pos_of_ne_zero hops)
    exact hbad (h s hs)
  · obtain ⟨W, R, hcounts⟩ := counts hs
    exact hcounts.ordered

/-- The sizes of the two programs, all values being 1. -/
abbrev sizes : Params where
  bufferSize := 128
  bufferSize_pos := Nat.succ_pos _
  values := List.replicate 400 1
  numOps := 400
  garbage := 0

/-- `consume` loads the 0 of the empty memory. -/
theorem sizes_loads_empty : ¬ ∀ s, (program sizes).Reachable s → Ordered s := by
  intro h
  obtain ⟨s, hs, hbad⟩ : ∃ s, (program sizes).Reachable s ∧ ¬ Ordered s :=
    exists_not_ordered (Nat.succ_pos 399)
  exact hbad (h s hs)

end LockFree
