/-
A queue in the cells of a ring.

The oldest value stands at the read index, the others follow it around the ring, and
the next one goes to the write index.

* `RingQueue.of_cells`, `RingQueue.write_free` — only the cells of the queue count, and the one at
  the write index is none of them as long as there is room;
* `RingQueue.push`, `RingQueue.pop`, `RingQueue.head` — the moves of the two indexes;
* `RingQueue.unique` — the cells, the indexes and the length determine the queue.
-/
import SistemiDiCalcolo.BoundedFifo

variable {α : Type*} {N r w i : ℕ} {cell cell' : ℕ → Option α} {q q' : List α} {v : α}

/-- The `N` cells of a ring hold the queue `q`, from the read index `r` to the write index `w`. -/
structure RingQueue (N : ℕ) (cell : ℕ → Option α) (r w : ℕ) (q : List α) : Prop where
  read_lt : r < N
  length_le : q.length ≤ N
  write_eq : w = (r + q.length) % N
  cells : ∀ i, i < q.length → cell ((r + i) % N) = q[i]?

namespace RingQueue

theorem pos (h : RingQueue N cell r w q) : 0 < N := Nat.zero_lt_of_lt h.read_lt

theorem write_lt (h : RingQueue N cell r w q) : w < N := by
  rw [h.write_eq]
  exact Nat.mod_lt _ h.pos

theorem empty (hr : r < N) : RingQueue N cell r r ([] : List α) where
  read_lt := hr
  length_le := Nat.zero_le N
  write_eq := (Nat.mod_eq_of_lt hr).symm
  cells _ hi := absurd hi (Nat.not_lt_zero _)

/-- Only the cells of the ring count. -/
theorem of_cells (h : RingQueue N cell r w q) (hcell : ∀ i, i < N → cell' i = cell i) :
    RingQueue N cell' r w q where
  read_lt := h.read_lt
  length_le := h.length_le
  write_eq := h.write_eq
  cells i hi := by
    rw [hcell _ (Nat.mod_lt _ h.pos)]
    exact h.cells i hi

/-- The cell of an unread value is not the one at the write index, unless the ring is full. -/
theorem ne_write (h : RingQueue N cell r w q) (hroom : q.length < N) (hi : i < q.length) :
    (r + i) % N ≠ w := by
  rw [h.write_eq]
  exact mod_ne_mod (Nat.add_lt_add_left hi r) (by omega)

/-- A write at the write index leaves the queue alone as long as there is room. -/
theorem write_free (h : RingQueue N cell r w q) (hroom : q.length < N)
    (hcell : ∀ i, i < N → i ≠ w → cell' i = cell i) : RingQueue N cell' r w q where
  read_lt := h.read_lt
  length_le := h.length_le
  write_eq := h.write_eq
  cells i hi := by
    rw [hcell _ (Nat.mod_lt _ h.pos) (h.ne_write hroom hi)]
    exact h.cells i hi

/-- The write index moves past a value. -/
theorem push (h : RingQueue N cell r w q) (hroom : q.length < N) (hv : cell w = some v) :
    RingQueue N cell r ((w + 1) % N) (q ++ [v]) where
  read_lt := h.read_lt
  length_le := by
    rw [List.length_append]
    exact hroom
  write_eq := by
    rw [h.write_eq, List.length_append, List.length_singleton, Nat.mod_add_mod, Nat.add_assoc]
  cells i hi := by
    rw [List.length_append, List.length_singleton] at hi
    rcases Nat.lt_succ_iff_lt_or_eq.mp hi with hold | rfl
    · rw [List.getElem?_append_left hold]
      exact h.cells i hold
    · rw [← h.write_eq, hv, List.getElem?_concat_length]

/-- The oldest value is at the read index. -/
theorem head (h : RingQueue N cell r w (v :: q)) : cell r = some v := by
  have hcell := h.cells 0 (Nat.succ_pos _)
  rwa [Nat.add_zero, Nat.mod_eq_of_lt h.read_lt] at hcell

/-- The read index moves past a value. -/
theorem pop (h : RingQueue N cell r w (v :: q)) : RingQueue N cell ((r + 1) % N) w q where
  read_lt := Nat.mod_lt _ h.pos
  length_le := (Nat.le_succ _).trans h.length_le
  write_eq := by
    rw [h.write_eq, List.length_cons, Nat.mod_add_mod]
    congr 1
    omega
  cells i hi := by
    have hcell := h.cells (i + 1) (Nat.succ_lt_succ hi)
    rw [Nat.mod_add_mod, Nat.add_assoc, Nat.add_comm 1 i]
    exact hcell

theorem unique (h : RingQueue N cell r w q) (h' : RingQueue N cell r w q')
    (hlen : q.length = q'.length) : q = q' := by
  refine List.ext_getElem? fun i => ?_
  rcases Nat.lt_or_ge i q.length with hi | hi
  · rw [← h.cells i hi, h'.cells i (hlen ▸ hi)]
  · rw [List.getElem?_eq_none hi, List.getElem?_eq_none (hlen ▸ hi)]

end RingQueue
