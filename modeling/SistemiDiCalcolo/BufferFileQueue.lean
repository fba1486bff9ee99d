/-
The queue that a file of Lab03/es3 holds.

* `Represents` — the elements and the two indexes at the end of the file hold a queue;
* `Cells.element`, `Cells.write`, `Cells.read` — the parts of a call on the `int`s of the file;
* `write_read_comm` — the two operations commute on a ring that is neither empty nor full;
* `Blank` — a file so large that the offsets of its indexes are no `int`s.
-/
import SistemiDiCalcolo.BufferFile
import SistemiDiCalcolo.RingQueue

open AccessLog (Byte intBytes)
open IntFile (sizeofInts fseek fread fwrite)

namespace BufferFile

/-- The `int`s `vs` are `N` elements, the read index `r` and the write index `w`, and hold the
queue `q`. -/
structure Cells (N : ℕ) (vs : List CInt) (r w : ℕ) (q : List CInt) : Prop where
  length : vs.length = N + 2
  readIndex : vs[N]? = some (BitVec.ofNat 32 r)
  writeIndex : vs[N + 1]? = some (BitVec.ofNat 32 w)
  ring : RingQueue N (fun i => vs[i]?) r w q

/-- The bytes of a file hold the queue `q`. -/
def Represents (N : ℕ) (bytes : List Byte) (q : List CInt) : Prop :=
  ∃ vs r w, bytes = vs.flatMap intBytes ∧ Cells N vs r w q

section Cells

variable {N r w : ℕ} {vs : List CInt} {q q' : List CInt} {v : CInt} {bytes : List Byte}

/-- The element written, but not the index: it is in none of the cells of the queue. -/
theorem Cells.element (h : Cells N vs r w q) (hroom : q.length < N) (v : CInt) :
    Cells N (vs.set w v) r w q where
  length := by rw [List.length_set, h.length]
  readIndex := by
    have hw := h.ring.write_lt
    rw [List.getElem?_set_ne (by omega), h.readIndex]
  writeIndex := by
    have hw := h.ring.write_lt
    rw [List.getElem?_set_ne (by omega), h.writeIndex]
  ring := h.ring.write_free hroom fun i _ hne => List.getElem?_set_ne hne.symm

/-- The element and the index written. -/
theorem Cells.write (h : Cells N vs r w q) (hroom : q.length < N) (v : CInt) :
    Cells N ((vs.set w v).set (N + 1) (BitVec.ofNat 32 ((w + 1) % N))) r ((w + 1) % N)
      (q ++ [v]) where
  length := by rw [List.length_set, List.length_set, h.length]
  readIndex := by rw [List.getElem?_set_ne (by omega), (h.element hroom v).readIndex]
  writeIndex := by
    have hlen := (h.element hroom v).length
    rw [List.getElem?_set_self (by omega)]
  ring := by
    have hw := h.ring.write_lt
    have hlen := h.length
    have hring := (h.element hroom v).ring.push hroom (List.getElem?_set_self (by omega))
    exact hring.of_cells fun i hi => List.getElem?_set_ne (by omega)

/-- The oldest element, and the index written. -/
theorem Cells.read (h : Cells N vs r w (v :: q)) :
    vs[r]? = some v ∧ Cells N (vs.set N (BitVec.ofNat 32 ((r + 1) % N))) ((r + 1) % N) w q where
  left := h.ring.head
  right :=
    { length := by rw [List.length_set, h.length]
      readIndex := by
        have hlen := h.length
        rw [List.getElem?_set_self (by omega)]
      writeIndex := by rw [List.getElem?_set_ne (by omega), h.writeIndex]
      ring := h.ring.pop.of_cells fun i hi => List.getElem?_set_ne (by omega) }

/-- The file and the number of values determine the queue. -/
theorem Represents.unique (hN : N ≤ 2 ^ 31) (h : Represents N bytes q)
    (h' : Represents N bytes q') (hlen : q.length = q'.length) : q = q' := by
  obtain ⟨vs, r, w, hbytes, hcells⟩ := h
  obtain ⟨vs', r', w', hbytes', hcells'⟩ := h'
  have hvs : vs = vs' := by
    rw [← AccessLog.readInts_flatMap vs, ← hbytes, hbytes', AccessLog.readInts_flatMap]
  subst hvs
  have hindex : ∀ {i : ℕ} {a b : ℕ}, vs[i]? = some (BitVec.ofNat 32 a) →
      vs[i]? = some (BitVec.ofNat 32 b) → a < N → b < N → a = b := by
    intro i a b ha hb hlt hlt'
    rw [ha] at hb
    exact (ofNat_inj_of_lt (by omega) (by omega)).mp (Option.some.inj hb)
  obtain rfl := hindex hcells.readIndex hcells'.readIndex hcells.ring.read_lt hcells'.ring.read_lt
  obtain rfl :=
    hindex hcells.writeIndex hcells'.writeIndex hcells.ring.write_lt hcells'.ring.write_lt
  exact hcells.ring.unique hcells'.ring hlen

end Cells

/-! ### Large files -/

section Blank

variable {N : ℕ} {bytes : List Byte} {q : List CInt} {file : File}

/-- The indexes at the end of the file are zeros. -/
def Blank (N : ℕ) (bytes : List Byte) : Prop :=
  ∃ vs : List CInt, bytes = vs.flatMap intBytes ∧ vs.length = N + 2 ∧ vs[N]? = some 0 ∧
    vs[N + 1]? = some 0

theorem blank_initFile (N : ℕ) : Blank N (zeros (N + 2)) := by
  refine ⟨List.replicate (N + 2) 0, zeros_eq _, List.length_replicate, ?_, ?_⟩
  · simp
  · simp

theorem Blank.represents_nil (h : Blank N bytes) (hN : 0 < N) : Represents N bytes [] := by
  obtain ⟨vs, hbytes, hlen, hread, hwrite⟩ := h
  exact ⟨vs, 0, 0, hbytes, hlen, hread, hwrite, .empty hN⟩

/-- What is written to a file this large at an offset that is an `int` stays away from
its end. -/
theorem Blank.put (h : Blank N file.bytes) (hlarge : 2 ^ 31 ≤ 4 * N) {n v : CInt} {pos : ℕ}
    (hpos : fseek (sizeofInts n) = some pos) (target : Target) :
    Blank N (file.put target pos v).bytes := by
  obtain ⟨vs, hbytes, hlen, hread, hwrite⟩ := h
  obtain ⟨k, rfl, hk⟩ := IntFile.fseek_sizeofInts_eq_some hpos
  refine ⟨vs.set k v, ?_, ?_, ?_, ?_⟩
  · rw [← IntFile.fwrite_ints (by omega), ← hbytes]
    rfl
  · rw [List.length_set, hlen]
  · rw [List.getElem?_set_ne (by omega), hread]
  · rw [List.getElem?_set_ne (by omega), hwrite]

end Blank

end BufferFile
