/-
The ring of `producer_consumer.c`, which nothing guards.

With one thread on each side, as in the file, only the producer moves `write_index` and only the
consumer `read_index` and `deposit`; what the consumer loads depends on how far the producer has
come.

* `load_eq_latest` — each load returns the latest value stored to its cell, or 0;
* `loads_latest` — with it, what is stored and what the deposit is at the end;
* `fifo_iff` — a schedule gives the transactions in order, whatever they are, exactly if each load
  comes after the store of its number and less than a round of stores later.
-/
import SistemiDiCalcolo.Unguarded
import SistemiDiCalcolo.LatestWrite
import SistemiDiCalcolo.ProducerConsumer11

open Function (update)
open LatestWrite
open ProducerConsumer (Params oneByOne)

namespace Unguarded

/-! ### What the accesses have in common -/

namespace ProducerPc

/-- The value is in the buffer, and the index has not moved yet. -/
@[simp] def lag : ProducerPc → ℕ
  | refetch | advance _ => 1
  | _ => 0

/-- The register, which holds `write_index`. -/
@[simp] def register : ProducerPc → Option ℕ
  | store i | advance i => some i
  | _ => none

/-- The transaction at hand is still to be stored. -/
@[simp] def Holding : ProducerPc → Prop
  | fetch | store _ => True
  | _ => False

end ProducerPc

namespace ConsumerPc

/-- The value is loaded, and the index has not moved yet. -/
@[simp] def lag : ConsumerPc → ℕ
  | loadDeposit _ | storeDeposit _ _ | refetch | advance _ => 1
  | loop | fetch | load _ | test | report | next | done => 0

/-- The register, when it holds `read_index`. -/
@[simp] def register : ConsumerPc → Option ℕ
  | load i | advance i => some i
  | loop | fetch | loadDeposit _ | storeDeposit _ _ | refetch | test | report | next | done => none

/-- The value that is loaded and not yet added. -/
@[simp] def pending : ConsumerPc → List CInt
  | loadDeposit v | storeDeposit v _ => [v]
  | loop | fetch | load _ | refetch | advance _ | test | report | next | done => []

/-- The deposit, when a register holds it. -/
@[simp] def deposit : ConsumerPc → Option CInt
  | storeDeposit _ d => some d
  | loop | fetch | load _ | loadDeposit _ | refetch | advance _ | test | report | next
  | done => none

end ConsumerPc

/-- What a producer thread has yet to store. -/
def Producer.toStore (t : Producer) : List CInt :=
  match t.pc with
  | .refetch | .advance _ | .next => t.ops.tail
  | .done => []
  | _ => t.ops

section OneByOne

variable {B : ℕ} {hB : 0 < B} {d : CInt} {values : List CInt} {numOps : ℕ} {s s' : State 1 1}

/-- The indexes with the accesses made, the cells with the values stored. -/
structure Inv (B : ℕ) (d : CInt) (values : List CInt) (s : State 1 1) : Prop where
  write : ∃ W, (stores s.trace).length = W + (s.prod 0).pc.lag ∧ s.writeIndex = W % B
  read : ∃ R, (loads s.trace).length = R + (s.cons 0).pc.lag ∧ s.readIndex = R % B
  prodReg : ∀ i, (s.prod 0).pc.register = some i → i = s.writeIndex
  consReg : ∀ i, (s.cons 0).pc.register = some i → i = s.readIndex
  holds : Holds B 0 (stores s.trace) s.transactions
  ring : Ring B 0 s.trace
  current : (s.prod 0).pc.Holding → (s.prod 0).ops.head? = some (s.prod 0).currentTransaction
  values : stores s.trace ++ (s.prod 0).toStore = values
  loaded : loads s.trace = s.added ++ (s.cons 0).pc.pending
  deposit : s.deposit = d + s.added.sum
  depositReg : ∀ x, (s.cons 0).pc.deposit = some x → x = s.deposit

theorem inv_start : Inv B d values (start (oneByOne B hB d values numOps)) where
  write := ⟨0, rfl, (Nat.zero_mod B).symm⟩
  read := ⟨0, rfl, (Nat.zero_mod B).symm⟩
  prodReg i h := by cases h
  consReg i h := by cases h
  holds := holds_nil B 0
  ring := ring_nil
  current h := h.elim
  values := rfl
  loaded := rfl
  deposit := by simp [start]
  depositReg x h := by cases h

/-- A step of the producer that touches no shared variable. -/
theorem Inv.prodMove (hs : Inv B d values s) {t : Producer} (hlag : t.pc.lag = (s.prod 0).pc.lag)
    (hreg : ∀ i, t.pc.register = some i → i = s.writeIndex)
    (hcurrent : t.pc.Holding → t.ops.head? = some t.currentTransaction)
    (hstore : t.toStore = (s.prod 0).toStore) :
    Inv B d values { s with prod := update s.prod 0 t } := by
  obtain ⟨W, hW, hwrite⟩ := hs.write
  exact { hs with
    write := ⟨W, by simp only [Function.update_self, hlag]; exact hW, hwrite⟩
    prodReg := by simpa only [Function.update_self] using hreg
    current := by simpa only [Function.update_self] using hcurrent
    values := by simp only [Function.update_self, hstore]; exact hs.values }

/-- A step of the consumer that touches no shared variable. -/
theorem Inv.consMove (hs : Inv B d values s) {t : Consumer} (hlag : t.pc.lag = (s.cons 0).pc.lag)
    (hreg : ∀ i, t.pc.register = some i → i = s.readIndex)
    (hpending : t.pc.pending = (s.cons 0).pc.pending)
    (hdeposit : ∀ x, t.pc.deposit = some x → x = s.deposit) :
    Inv B d values { s with cons := update s.cons 0 t } := by
  obtain ⟨R, hR, hread⟩ := hs.read
  exact { hs with
    read := ⟨R, by simp only [Function.update_self, hlag]; exact hR, hread⟩
    consReg := by simpa only [Function.update_self] using hreg
    loaded := by simp only [Function.update_self, hpending]; exact hs.loaded
    depositReg := by simpa only [Function.update_self] using hdeposit }

theorem Inv.performTransactions (hs : Inv B d values s) (h : performTransactions B s 0 = some s') :
    Inv B d values s' := by
  obtain ⟨W, hW, hwrite⟩ := hs.write
  have hreg := hs.prodReg
  have hcurrent := hs.current
  unfold Unguarded.performTransactions at h
  cases hpc : (s.prod 0).pc with
  | loop =>
    simp only [hpc] at h
    split at h
    · next hops =>
      cases h
      exact hs.prodMove (by simp [hpc]) (by simp) (by simp) (by simp [Producer.toStore, hpc, hops])
    · next v vs hops =>
      cases h
      exact hs.prodMove (by simp [hpc]) (by simp) (by simp [hops]) (by simp [Producer.toStore, hpc])
  | fetch =>
    simp only [hpc] at h
    cases h
    rw [hpc] at hcurrent
    exact hs.prodMove (by simp [hpc]) (by simp) (fun _ => hcurrent trivial)
      (by simp [Producer.toStore, hpc])
  | store i =>
    simp only [hpc] at h
    cases h
    rw [hpc] at hcurrent hW hreg
    obtain rfl := hreg i rfl
    have hlen : (stores s.trace).length = W := hW
    have hops : (s.prod 0).ops = (s.prod 0).currentTransaction :: (s.prod 0).ops.tail :=
      (List.eq_cons_of_mem_head? (hcurrent trivial))
    have hvalues := hs.values
    exact { hs with
      write := ⟨W, by simp [hlen], hwrite⟩
      prodReg := by simp
      current := by simp
      holds := by
        rw [stores_append_store, hwrite, ← hlen]
        exact hs.holds.store _
      ring := hs.ring.store 0 _
      loaded := by
        rw [loads_append_store]
        exact hs.loaded
      read := by
        rw [loads_append_store]
        exact hs.read
      values := by
        rw [Producer.toStore, hpc] at hvalues
        simp only [Function.update_self, Producer.toStore, stores_append_store, List.append_assoc,
          List.singleton_append]
        rw [← hops]
        exact hvalues }
  | refetch =>
    simp only [hpc] at h
    cases h
    exact hs.prodMove (by simp [hpc]) (by simp) (by simp) (by simp [Producer.toStore, hpc])
  | advance i =>
    simp only [hpc] at h
    cases h
    rw [hpc] at hW hreg
    obtain rfl := hreg i rfl
    have hvalues := hs.values
    exact { hs with
      write := ⟨W + 1, by simp only [Function.update_self]; exact hW, by
        rw [hwrite, Nat.mod_add_mod]⟩
      prodReg := by simp
      current := by simp
      values := by
        rw [Producer.toStore, hpc] at hvalues
        simp only [Function.update_self, Producer.toStore]
        exact hvalues }
  | next =>
    simp only [hpc] at h
    cases h
    exact hs.prodMove (by simp [hpc]) (by simp) (by simp) (by simp [Producer.toStore, hpc])
  | done =>
    simp only [hpc] at h
    cases h

theorem Inv.processTransactions (hs : Inv B d values s) (h : processTransactions B s 0 = some s') :
    Inv B d values s' := by
  obtain ⟨R, hR, hread⟩ := hs.read
  have hreg := hs.consReg
  have hloaded := hs.loaded
  have hdeposit := hs.depositReg
  unfold Unguarded.processTransactions at h
  cases hpc : (s.cons 0).pc with
  | loop | test =>
    simp only [hpc] at h
    split at h <;> cases h <;>
      exact hs.consMove (by simp [hpc]) (by simp) (by simp [hpc]) (by simp)
  | fetch | refetch | next =>
    simp only [hpc] at h
    cases h
    exact hs.consMove (by simp [hpc]) (by simp) (by simp [hpc]) (by simp)
  | load i =>
    simp only [hpc] at h
    cases h
    rw [hpc] at hR hreg hloaded
    obtain rfl := hreg i rfl
    have hlen : (loads s.trace).length = R := hR
    exact { hs with
      write := by
        rw [stores_append_load]
        exact hs.write
      read := ⟨R, by simp [hlen], hread⟩
      consReg := by simp
      holds := by
        rw [stores_append_load]
        exact hs.holds
      ring := hs.ring.load 0 (by rw [hread, hlen]; exact hs.holds _)
      values := by
        rw [stores_append_load]
        exact hs.values
      loaded := by simp [hloaded]
      depositReg := by simp }
  | loadDeposit v =>
    simp only [hpc] at h
    cases h
    exact hs.consMove (by simp [hpc]) (by simp) (by simp [hpc]) (by simp)
  | storeDeposit v x =>
    simp only [hpc] at h
    cases h
    rw [hpc] at hR hloaded hdeposit
    obtain rfl := hdeposit x rfl
    exact { hs with
      read := ⟨R, by simp only [Function.update_self]; exact hR, hread⟩
      consReg := by simp
      loaded := by simp [hloaded]
      deposit := by simp [hs.deposit, add_assoc]
      depositReg := by simp }
  | advance i =>
    simp only [hpc] at h
    cases h
    rw [hpc] at hR hreg hloaded
    obtain rfl := hreg i rfl
    exact { hs with
      read := ⟨R + 1, by simp only [Function.update_self]; exact hR, by
        rw [hread, Nat.mod_add_mod]⟩
      consReg := by simp
      loaded := by simpa using hloaded
      depositReg := by simp }
  | report =>
    simp only [hpc] at h
    cases h
    have hmove := hs.consMove (t := { s.cons 0 with pc := .next }) (by simp [hpc]) (by simp)
      (by simp [hpc]) (by simp)
    exact { hmove with }
  | done =>
    simp only [hpc] at h
    cases h

theorem inv (h : (program (oneByOne B hB d values numOps)).Reachable s) :
    Inv B d values s := by
  refine h.invariant ?_ fun s t s' _ hs hstep => ?_
  · rintro s rfl
    exact inv_start
  · cases t with
    | producer p =>
      obtain rfl : p = 0 := Subsingleton.elim _ _
      exact hs.performTransactions hstep
    | consumer c =>
      obtain rfl : c = 0 := Subsingleton.elim _ _
      exact hs.processTransactions hstep

/-- What a load has returned. -/
theorem load_eq_latest (h : (program (oneByOne B hB d values numOps)).Reachable s)
    (us : List (Event (Fin 1) (Fin 1) CInt)) (v : CInt) (ws : List (Event (Fin 1) (Fin 1) CInt))
    (htrace : s.trace = us ++ .load 0 v :: ws) :
    v = ((latest B (stores us).length ((loads us).length % B)).bind
      fun i => values[i]?).getD 0 := by
  have hs := inv h
  have hprefix : stores us <+: values := by
    have happend : stores s.trace = stores us ++ stores (.load 0 v :: ws) := by
      rw [htrace]
      exact List.filterMap_append
    rw [← hs.values, happend, List.append_assoc]
    exact List.prefix_append _ _
  obtain ⟨rest, hrest⟩ := hprefix
  rw [hs.ring us 0 v ws htrace, written, ← hrest, written_append le_rfl]

/-- **What is loaded**: in every reachable state each load has returned the latest value stored to
its cell before, or 0 if there was none; the values stored are those produced, in order, and the
deposit is the sum of the values loaded, but for one that is still to be added. -/
theorem loads_latest (B : ℕ) (hB : 0 < B) (d : CInt) (values : List CInt) (numOps : ℕ)
    (s : State 1 1)
    (h : (program (oneByOne B hB d values numOps)).Reachable s) :
    (∀ us v ws, s.trace = us ++ .load 0 v :: ws →
      v = ((latest B (stores us).length ((loads us).length % B)).bind fun i => values[i]?).getD 0) ∧
    stores s.trace <+: values ∧ ((s.prod 0).pc = .done → stores s.trace = values) ∧
    ∃ pending, loads s.trace = s.added ++ pending ∧ pending.length ≤ 1 ∧
      ((s.cons 0).pc = .done → pending = []) ∧ s.deposit = d + s.added.sum := by
  have hs := inv h
  have hvalues := hs.values
  refine ⟨load_eq_latest h, ⟨_, hvalues⟩, ?_, _, hs.loaded, ?_, ?_, hs.deposit⟩
  · intro hdone
    rw [Producer.toStore, hdone, List.append_nil] at hvalues
    exact hvalues
  · cases (s.cons 0).pc <;> simp
  · intro hdone
    rw [hdone]
    rfl

theorem reachable_of_run {ts : List (Thread 1 1)}
    (h : (program (oneByOne B hB d values numOps)).run (start (oneByOne B hB d values numOps)) ts
      = some s) : (program (oneByOne B hB d values numOps)).Reachable s :=
  Machine.reachable_iff_run.mpr ⟨_, ts, rfl, h⟩

/-- Three stores on a ring of two cells, and after them three loads. -/
def overrun : List (Thread 1 1) :=
  List.replicate 15 (.producer (Fin.last 0)) ++ List.replicate 22 (.consumer (Fin.last 0))

/-- The third value is loaded twice, and the first one never; one load is still to be added. -/
theorem loads_latest_overrun : ∃ s : State 1 1, loads s.trace = [9, 7, 9] ∧ s.added = [9, 7] ∧
    stores s.trace <+: [5, 7, 9, 11] ∧
    (∀ us v ws, s.trace = us ++ .load 0 v :: ws → v = ((latest 2 (stores us).length
      ((loads us).length % 2)).bind fun i => [5, 7, 9, 11][i]?).getD 0) ∧
    ∃ pending, loads s.trace = s.added ++ pending ∧ pending.length ≤ 1 := by
  have hrun : (program (oneByOne 2 Nat.two_pos 0 [5, 7, 9, 11] 3)).run
      (start (oneByOne 2 Nat.two_pos 0 [5, 7, 9, 11] 3)) overrun = some _ := rfl
  obtain ⟨hlatest, hstores, -, pending, hloads, hlen, -⟩ :=
    loads_latest 2 Nat.two_pos 0 [5, 7, 9, 11] 3 _ (reachable_of_run hrun)
  exact ⟨_, rfl, rfl, hstores, hlatest, pending, hloads, hlen⟩

/-! ### When the order is kept -/

/-- A load in one of two traces that differ in the values only. -/
theorem exists_split_of_erase {ι κ : Type*} {tr tr' us' ws' : List (Event ι κ CInt)} {c : κ}
    {v' : CInt} (h : tr.map eraseEvent = tr'.map eraseEvent)
    (htr : tr' = us' ++ .load c v' :: ws') :
    ∃ us v ws, tr = us ++ .load c v :: ws ∧ (stores us).length = (stores us').length ∧
      (loads us).length = (loads us').length := by
  rw [htr, List.map_append, List.map_cons] at h
  obtain ⟨us, rest, rfl, hus, hrest⟩ := List.map_eq_append_iff.mp h
  obtain ⟨x, ws, rfl, hx, -⟩ := List.map_eq_cons_iff.mp hrest
  cases x with
  | store p v => cases hx
  | load e v =>
    cases hx
    refine ⟨us, v, ws, rfl, ?_, ?_⟩
    · rw [← length_stores_erase us, hus, length_stores_erase]
    · rw [← length_loads_erase us, hus, length_loads_erase]

theorem inWindow_of_erase {ι κ : Type*} {tr tr' : List (Event ι κ CInt)}
    (h : tr.map eraseEvent = tr'.map eraseEvent) (hw : InWindow B tr) : InWindow B tr' := by
  intro us' c v' ws' htr
  obtain ⟨us, v, ws, hsplit, hstores, hloads⟩ := exists_split_of_erase h htr
  rw [← hstores, ← hloads]
  exact hw us c v ws hsplit

/-- The same schedule on other values. -/
theorem run_values (values' : List CInt) {ts : List (Thread 1 1)}
    (hlen : values'.length = values.length)
    (h : (program (oneByOne B hB d values numOps)).run (start (oneByOne B hB d values numOps)) ts
      = some s) :
    ∃ s', (program (oneByOne B hB d values' numOps)).run
        (start (oneByOne B hB d values' numOps)) ts = some s' ∧
      s.trace.map eraseEvent = s'.trace.map eraseEvent := by
  have herase : (start (oneByOne B hB d values' numOps)).erase
      = (start (oneByOne B hB d values numOps)).erase := by
    have hops : (values'.map fun _ => (0 : CInt)) = values.map fun _ => 0 := by
      rw [List.map_const', List.map_const', hlen]
    simp only [State.erase, start]
    congr 1
    exact funext fun p => by simp only [Function.comp_apply, Producer.erase, hops]
  have hrun := Machine.run_map (M := program (oneByOne B hB d values numOps))
    (N := program (oneByOne B hB d values numOps)) (f := State.erase) (I := fun _ => True)
    (fun s t _ => step_erase s t) (fun _ _ _ _ _ => trivial)
    (s := start (oneByOne B hB d values numOps)) trivial ts
  have hrun' := Machine.run_map (M := program (oneByOne B hB d values' numOps))
    (N := program (oneByOne B hB d values numOps)) (f := State.erase) (I := fun _ => True)
    (fun s t _ => step_erase s t) (fun _ _ _ _ _ => trivial)
    (s := start (oneByOne B hB d values' numOps)) trivial ts
  rw [h] at hrun
  rw [herase, hrun] at hrun'
  obtain ⟨s', hs', heq⟩ := Option.map_eq_some_iff.mp hrun'.symm
  exact ⟨s', hs', (congrArg State.trace heq).symm⟩

/-- Results of `rand()` that mark one transaction among others. -/
def marked (j len : ℕ) : List ℕ := (List.range len).map fun k => if k = j then 0 else 1

theorem length_marked (j len : ℕ) : (marked j len).length = len := by simp [marked]

theorem marked_getElem? (i j len : ℕ) : ((marked j len).map performRandomTransaction)[i]?
    = if i < len then some (if i = j then 1 else 2) else none := by
  have hzero : performRandomTransaction 0 = 1 := by decide
  have hone : performRandomTransaction 1 = 2 := by decide
  rw [marked, List.map_map, List.getElem?_map]
  by_cases hi : i < len
  · rw [List.getElem?_range hi, if_pos hi, Option.map_some, Function.comp_apply]
    split_ifs
    · rw [hzero]
    · rw [hone]
  · rw [List.getElem?_eq_none (by simpa using Nat.not_lt.mp hi), if_neg hi, Option.map_none]

/-- A load that returns the marked transaction comes after its store and before the next one to its
cell. -/
theorem latest_of_marked {p c j len : ℕ} {v : CInt}
    (hmark : ((marked j len).map performRandomTransaction)[j]? = some v)
    (hv : v = ((latest B p c).bind fun i =>
      ((marked j len).map performRandomTransaction)[i]?).getD 0) : latest B p c = some j := by
  rw [marked_getElem?] at hmark
  by_cases hj : j < len
  · rw [if_pos hj, if_pos rfl] at hmark
    obtain rfl := Option.some.inj hmark
    cases hl : latest B p c with
    | none =>
      rw [hl, Option.bind_none, Option.getD_none] at hv
      exact absurd hv (by decide)
    | some i =>
      rw [hl, Option.bind_some, marked_getElem?] at hv
      by_cases hi : i < len
      · rw [if_pos hi, Option.getD_some] at hv
        split_ifs at hv with hij
        · rw [hij]
        · exact absurd hv (by decide)
      · rw [if_neg hi, Option.getD_none] at hv
        exact absurd hv (by decide)
  · rw [if_neg hj] at hmark
    cases hmark

/-- **The order of the transactions**: whatever `rand()` returns, a schedule gives the consumer the
transactions in the order in which they are produced, exactly if each of its loads comes after the
store of the same number, and less than a round of stores later. -/
theorem fifo_iff (B : ℕ) (hB : 0 < B) (d : CInt) (rands : List ℕ) (numOps : ℕ)
    {ts : List (Thread 1 1)} {s : State 1 1}
    (h : (program (oneByOne B hB d (rands.map performRandomTransaction) numOps)).run
      (start (oneByOne B hB d (rands.map performRandomTransaction) numOps)) ts = some s) :
    (∀ (rands' : List ℕ) (s' : State 1 1), rands'.length = rands.length →
      (program (oneByOne B hB d (rands'.map performRandomTransaction) numOps)).run
        (start (oneByOne B hB d (rands'.map performRandomTransaction) numOps)) ts = some s' →
      loads s'.trace <+: stores s'.trace) ↔ InWindow B s.trace := by
  constructor
  · intro hall us c v ws htrace
    obtain rfl : c = 0 := Subsingleton.elim _ _
    rw [← latest_eq_some_self hB]
    have hlen := length_marked (loads us).length rands.length
    obtain ⟨s', hs', herase⟩ := run_values
      ((marked (loads us).length rands.length).map performRandomTransaction)
      (by rw [List.length_map, List.length_map, hlen]) h
    obtain ⟨us', v', ws', htrace', hstores, hloads⟩ := exists_split_of_erase herase.symm htrace
    have hreach := reachable_of_run hs'
    have hv' := load_eq_latest hreach us' v' ws' htrace'
    rw [hstores, hloads] at hv'
    -- the load returns the transaction of its number
    obtain ⟨rest, hrest⟩ := (hall _ s' hlen hs').trans ⟨_, (inv hreach).values⟩
    have happend : loads s'.trace = loads us' ++ v' :: loads ws' := by
      rw [htrace', loads, List.filterMap_append]
      rfl
    refine latest_of_marked (v := v') ?_ hv'
    rw [← hrest, happend, List.append_assoc, ← hloads, List.getElem?_append_right le_rfl,
      Nat.sub_self]
    rfl
  · intro hw rands' s' hlen hs'
    obtain ⟨s'', hs'', herase⟩ := run_values (rands'.map performRandomTransaction)
      (by rw [List.length_map, List.length_map, hlen]) h
    obtain rfl : s'' = s' := Option.some.inj (hs''.symm.trans hs')
    exact (inv (reachable_of_run hs')).ring.loads_prefix (inWindow_of_erase herase hw)

/-- Three stores and three loads on a ring of two cells, the third store after the first load. -/
def inTurn : List (Thread 1 1) :=
  List.replicate 9 (.producer (Fin.last 0)) ++ List.replicate 9 (.consumer (Fin.last 0))
    ++ List.replicate 6 (.producer (Fin.last 0)) ++ List.replicate 13 (.consumer (Fin.last 0))

theorem fifo_iff_inTurn : ∃ s : State 1 1,
    (program (oneByOne 2 Nat.two_pos 0 ([0, 1, 2].map performRandomTransaction) 3)).run
        (start (oneByOne 2 Nat.two_pos 0 ([0, 1, 2].map performRandomTransaction) 3)) inTurn
      = some s ∧ (stores s.trace).length = 3 ∧ loads s.trace = stores s.trace ∧
    ((∀ (rands' : List ℕ) (s' : State 1 1), rands'.length = 3 →
      (program (oneByOne 2 Nat.two_pos 0 (rands'.map performRandomTransaction) 3)).run
        (start (oneByOne 2 Nat.two_pos 0 (rands'.map performRandomTransaction) 3)) inTurn
          = some s' →
      loads s'.trace <+: stores s'.trace) ↔ InWindow 2 s.trace) :=
  ⟨_, rfl, rfl, rfl, fifo_iff 2 Nat.two_pos 0 [0, 1, 2] 3 rfl⟩

end OneByOne

end Unguarded
