/-
The bounded first-in first-out queue, seen through its traces.

A trace lists the stores and the loads in the order in which they happen, each
with the agent that did it and the value.  `Fifo B` says that the trace is one
of a queue of capacity `B`: a store finds fewer than `B` unread values, and a
load returns the oldest unread one.

* `Fifo.loads_prefix_stores` — the values loaded are a prefix of the values stored;
* `Fifo.occupancy` — at most `B` values are unread;
* `sum_stores`, `sum_loads`, `length_stores`, `length_loads` — a trace is the
  sum of what each agent did in it.
-/
import SistemiDiCalcolo.Tally
import Mathlib.Algebra.BigOperators.Group.List.Basic
import Mathlib.Data.Nat.ModEq

/-- What the agents do to a shared buffer: producer `p` stores `v`, or consumer
`c` loads `v`. -/
inductive Event (ι κ α : Type*)
  | store (p : ι) (v : α)
  | load (c : κ) (v : α)
  deriving DecidableEq, Repr

section Traces

variable {ι κ α : Type*}

namespace Event

def stored : Event ι κ α → Option α
  | store _ v => some v
  | load _ _ => none

def loaded : Event ι κ α → Option α
  | store _ _ => none
  | load _ v => some v

def storedBy [DecidableEq ι] (p : ι) : Event ι κ α → Option α
  | store q v => if q = p then some v else none
  | load _ _ => none

def loadedBy [DecidableEq κ] (c : κ) : Event ι κ α → Option α
  | store _ _ => none
  | load d v => if d = c then some v else none

/-- Exchange the two sides. -/
def swap : Event ι κ α → Event κ ι α
  | store p v => load p v
  | load c v => store c v

end Event

/-- The values stored, in storing order. -/
def stores (tr : List (Event ι κ α)) : List α := tr.filterMap Event.stored

/-- The values loaded, in loading order. -/
def loads (tr : List (Event ι κ α)) : List α := tr.filterMap Event.loaded

/-- The values that producer `p` stored. -/
def storesOf [DecidableEq ι] (p : ι) (tr : List (Event ι κ α)) : List α :=
  tr.filterMap (Event.storedBy p)

/-- The values that consumer `c` loaded. -/
def loadsOf [DecidableEq κ] (c : κ) (tr : List (Event ι κ α)) : List α :=
  tr.filterMap (Event.loadedBy c)

@[simp] theorem stores_nil : stores ([] : List (Event ι κ α)) = [] := rfl

@[simp] theorem loads_nil : loads ([] : List (Event ι κ α)) = [] := rfl

@[simp] theorem stores_append_store (tr : List (Event ι κ α)) (p : ι) (v : α) :
    stores (tr ++ [.store p v]) = stores tr ++ [v] := by
  simp [stores, Event.stored]

@[simp] theorem stores_append_load (tr : List (Event ι κ α)) (c : κ) (v : α) :
    stores (tr ++ [.load c v]) = stores tr := by
  simp [stores, Event.stored]

@[simp] theorem loads_append_store (tr : List (Event ι κ α)) (p : ι) (v : α) :
    loads (tr ++ [.store p v]) = loads tr := by
  simp [loads, Event.loaded]

@[simp] theorem loads_append_load (tr : List (Event ι κ α)) (c : κ) (v : α) :
    loads (tr ++ [.load c v]) = loads tr ++ [v] := by
  simp [loads, Event.loaded]

theorem loads_eq_stores_swap (tr : List (Event ι κ α)) :
    loads tr = stores (tr.map Event.swap) := by
  rw [loads, stores, List.filterMap_map]
  exact congrArg (List.filterMap · tr) (funext fun e => by cases e <;> rfl)

section PerProducer

variable [DecidableEq ι]

@[simp] theorem storesOf_nil (p : ι) : storesOf p ([] : List (Event ι κ α)) = [] := rfl

@[simp] theorem storesOf_append_store (tr : List (Event ι κ α)) (p q : ι) (v : α) :
    storesOf p (tr ++ [.store q v]) = storesOf p tr ++ if q = p then [v] else [] := by
  by_cases h : q = p <;> simp [storesOf, Event.storedBy, h]

@[simp] theorem storesOf_append_load (tr : List (Event ι κ α)) (p : ι) (c : κ) (v : α) :
    storesOf p (tr ++ [.load c v]) = storesOf p tr := by
  simp [storesOf, Event.storedBy]

/-- Whatever is added up over the stored values is the sum over the producers
of what it adds up to over each one's values. -/
theorem sum_stores [Fintype ι] {M : Type*} [AddCommMonoid M] (f : α → M)
    (tr : List (Event ι κ α)) :
    ((stores tr).map f).sum = ∑ p, ((storesOf p tr).map f).sum := by
  induction tr using List.reverseRecOn with
  | nil => simp
  | append_singleton tr e ih =>
    cases e with
    | store q v =>
      simp only [stores_append_store, storesOf_append_store, List.map_append, List.sum_append,
        Finset.sum_add_distrib, ih]
      congr 1
      rw [Finset.sum_eq_single q (fun p _ hp => by rw [if_neg (Ne.symm hp)]; rfl)
        (fun hq => absurd (Finset.mem_univ q) hq), if_pos rfl]
    | load c v => simpa using ih

theorem length_stores [Fintype ι] (tr : List (Event ι κ α)) :
    (stores tr).length = ∑ p, (storesOf p tr).length := by
  simpa [List.map_const'] using sum_stores (fun _ => (1 : ℕ)) tr

end PerProducer

section PerConsumer

variable [DecidableEq κ]

@[simp] theorem loadsOf_nil (c : κ) : loadsOf c ([] : List (Event ι κ α)) = [] := rfl

@[simp] theorem loadsOf_append_store (tr : List (Event ι κ α)) (c : κ) (p : ι) (v : α) :
    loadsOf c (tr ++ [.store p v]) = loadsOf c tr := by
  simp [loadsOf, Event.loadedBy]

@[simp] theorem loadsOf_append_load (tr : List (Event ι κ α)) (c d : κ) (v : α) :
    loadsOf c (tr ++ [.load d v]) = loadsOf c tr ++ if d = c then [v] else [] := by
  by_cases h : d = c <;> simp [loadsOf, Event.loadedBy, h]

theorem loadsOf_eq_storesOf_swap (c : κ) (tr : List (Event ι κ α)) :
    loadsOf c tr = storesOf c (tr.map Event.swap) := by
  rw [loadsOf, storesOf, List.filterMap_map]
  exact congrArg (List.filterMap · tr) (funext fun e => by cases e <;> rfl)

theorem sum_loads [Fintype κ] {M : Type*} [AddCommMonoid M] (f : α → M)
    (tr : List (Event ι κ α)) :
    ((loads tr).map f).sum = ∑ c, ((loadsOf c tr).map f).sum := by
  simp only [loads_eq_stores_swap, loadsOf_eq_storesOf_swap]
  exact sum_stores f _

theorem length_loads [Fintype κ] (tr : List (Event ι κ α)) :
    (loads tr).length = ∑ c, (loadsOf c tr).length := by
  simpa [List.map_const'] using sum_loads (fun _ => (1 : ℕ)) tr

end PerConsumer

/-! ### The queue discipline -/

/-- Positions less than `B` apart are at different cells. -/
theorem mod_ne_mod {a b B : ℕ} (h : a < b) (h' : b < a + B) : a % B ≠ b % B := by
  intro heq
  have hdvd : B ∣ b - a := (Nat.modEq_iff_dvd' h.le).mp heq
  have := Nat.le_of_dvd (by omega) hdvd
  omega

/-- Extending a prefix by the element that follows it gives a prefix. -/
theorem prefix_concat_of_getElem? {l m : List α} {v : α} (h : l <+: m)
    (hv : m[l.length]? = some v) : l ++ [v] <+: m := by
  obtain ⟨t, rfl⟩ := h
  rw [List.getElem?_append_right le_rfl, Nat.sub_self] at hv
  obtain ⟨hlen, rfl⟩ := List.getElem?_eq_some_iff.mp hv
  refine ⟨t.tail, ?_⟩
  rw [List.append_assoc, List.singleton_append]
  congr 1
  cases t with
  | nil => simp at hlen
  | cons a t => rfl

/-- The traces of a first-in first-out queue that holds at most `B` values. -/
inductive Fifo (B : ℕ) : List (Event ι κ α) → Prop
  | nil : Fifo B []
  | store {tr : List (Event ι κ α)} (p : ι) (v : α) : Fifo B tr →
      (stores tr).length < (loads tr).length + B → Fifo B (tr ++ [.store p v])
  | load {tr : List (Event ι κ α)} (c : κ) {v : α} : Fifo B tr →
      (stores tr)[(loads tr).length]? = some v → Fifo B (tr ++ [.load c v])

variable {B : ℕ} {tr : List (Event ι κ α)}

/-- **First in, first out**: the values loaded are a prefix of the values
stored. -/
theorem Fifo.loads_prefix_stores (h : Fifo B tr) : loads tr <+: stores tr := by
  induction h with
  | nil => exact List.prefix_rfl
  | store p v _ _ ih =>
    rw [loads_append_store, stores_append_store]
    exact ih.trans (List.prefix_append _ _)
  | load c _ hv ih =>
    rw [loads_append_load, stores_append_load]
    exact prefix_concat_of_getElem? ih hv

/-- The queue never holds more than `B` values. -/
theorem Fifo.occupancy (h : Fifo B tr) : (stores tr).length ≤ (loads tr).length + B := by
  induction h with
  | nil => simp
  | store p v _ hroom _ =>
    rw [stores_append_store, loads_append_store, List.length_append, List.length_singleton]
    omega
  | load c _ _ ih =>
    rw [stores_append_load, loads_append_load, List.length_append, List.length_singleton]
    omega

end Traces
