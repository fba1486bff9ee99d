/-
The ring buffer in a file of Lab03/es3 (`common.c`).

The file holds `numElems` elements, the read index and the write index, all of them
`int`s; every call opens the file and works on it at offsets it computes from what it
reads there.

* `initFile`, `writeToBufferFile`, `readFromBufferFile` — the functions;
* `program` — any sequence of calls, with the trace of the values written and read;
* `bounded_queue` — as long as the calls keep to the capacity, the file is a queue.
-/
import SistemiDiCalcolo.Machine
import SistemiDiCalcolo.BoundedFifo
import SistemiDiCalcolo.IntFile

open AccessLog (Byte intBytes)
open IntFile (sizeofInts fseek fread fwrite)

namespace BufferFile

/-- What the program means to overwrite. -/
inductive Target
  | element
  | index
  deriving DecidableEq, Repr

/-- The file; beside its bytes, where they have been overwritten, and as what. -/
structure File where
  bytes : List Byte
  writes : List (Target × ℕ)
  deriving DecidableEq, Repr

/-- `fwrite` of one `int` at a position. -/
def File.put (file : File) (target : Target) (pos : ℕ) (v : CInt) : File where
  bytes := fwrite file.bytes pos v
  writes := file.writes ++ [(target, pos)]

/-- The loop of `initFile`: `n` zeros, one after another. -/
def zeros : ℕ → List Byte
  | 0 => []
  | n + 1 => fwrite (zeros n) (4 * n) 0

/-- `initFile`. -/
def initFile (numElems : CInt) : File where
  bytes := zeros (numElems + 2).toInt.toNat
  writes := []

/-- `writeToBufferFile`; `none` is a call that ends in `handle_error`. -/
def writeToBufferFile (value numElems : CInt) (file : File) : Option File := do
  let windex_offset := sizeofInts (numElems + 1)
  let pos ← fseek windex_offset
  let write_index ← fread file.bytes pos
  let element_offset := sizeofInts write_index
  let pos ← fseek element_offset
  let file := file.put .element pos value
  let write_index := (write_index + 1).srem numElems
  let pos ← fseek windex_offset
  some (file.put .index pos write_index)

/-- `readFromBufferFile`. -/
def readFromBufferFile (numElems : CInt) (file : File) : Option (CInt × File) := do
  let rindex_offset := sizeofInts numElems
  let pos ← fseek rindex_offset
  let read_index ← fread file.bytes pos
  let element_offset := sizeofInts read_index
  let pos ← fseek element_offset
  let value ← fread file.bytes pos
  let read_index := (read_index + 1).srem numElems
  let pos ← fseek rindex_offset
  some (value, file.put .index pos read_index)

/-- A call. -/
inductive Call
  | write (value : CInt)
  | read
  deriving DecidableEq, Repr

/-- The file, and what has been written to it and read from it. -/
structure State where
  file : File
  trace : List (Event Unit Unit CInt)

/-- The calls that come after `initFile(numElems, f)`. -/
def program (numElems : CInt) : Machine State Call where
  init s := s = ⟨initFile numElems, []⟩
  step s
    | .write value =>
      (writeToBufferFile value numElems s.file).map fun file =>
        ⟨file, s.trace ++ [.store () value]⟩
    | .read =>
      (readFromBufferFile numElems s.file).map fun (value, file) =>
        ⟨file, s.trace ++ [.load () value]⟩

/-- The call keeps the reads from exceeding the writes, and these from exceeding the reads
by more than `n`. -/
def Allowed (n : ℕ) (s : State) : Call → Prop
  | .write _ => (stores s.trace).length < (loads s.trace).length + n
  | .read => (loads s.trace).length < (stores s.trace).length

/-! ### The file as a list of `int`s -/

section Layout

variable {N r w n : ℕ} {vs : List CInt} {file : File} {value : CInt}

theorem zeros_eq : ∀ n, zeros n = (List.replicate n 0).flatMap intBytes
  | 0 => rfl
  | n + 1 => by
    have hend := IntFile.fwrite_ints_end (List.replicate n 0) 0
    rw [List.length_replicate] at hend
    rw [zeros, zeros_eq n, hend, List.replicate_succ']

/-- `(index + 1) % numElems` on small numbers. -/
theorem advance_eq (hN : 0 < N) (hsize : N < 2 ^ 31) (hw : w < N) :
    (BitVec.ofNat 32 w + 1).srem (BitVec.ofNat 32 N) = BitVec.ofNat 32 ((w + 1) % N) := by
  have hsucc : (BitVec.ofNat 32 w + 1 : CInt) = BitVec.ofNat 32 (w + 1) :=
    BitVec.ofNat_add_ofNat w 1
  have hmod : (w + 1) % N < N := Nat.mod_lt _ hN
  apply BitVec.eq_of_toInt_eq
  rw [hsucc, BitVec.toInt_srem, toInt_ofNat_of_lt (by omega), toInt_ofNat_of_lt (by omega),
    toInt_ofNat_of_lt (by omega), Int.ofNat_tmod]

/-- What `writeToBufferFile` does to the `int`s of the file. -/
theorem writeToBufferFile_eq (hN : 0 < N) (hsize : 4 * (N + 1) < 2 ^ 31)
    (hbytes : file.bytes = vs.flatMap intBytes) (hlen : vs.length = N + 2)
    (hindex : vs[N + 1]? = some (BitVec.ofNat 32 w)) (hw : w < N) :
    writeToBufferFile value (BitVec.ofNat 32 N) file = some
      { bytes := ((vs.set w value).set (N + 1) (BitVec.ofNat 32 ((w + 1) % N))).flatMap intBytes
        writes := file.writes ++ [(.element, 4 * w)] ++ [(.index, 4 * (N + 1))] } := by
  have hsucc : (BitVec.ofNat 32 N + 1 : CInt) = BitVec.ofNat 32 (N + 1) :=
    BitVec.ofNat_add_ofNat N 1
  have hseek := IntFile.fseek_sizeofInts hsucc (by omega)
  have hread := IntFile.fread_ints vs (N + 1)
  have hseekElement := IntFile.fseek_sizeofInts (n := BitVec.ofNat 32 w) rfl (by omega)
  simp only [writeToBufferFile, hseek, Option.bind_eq_bind, Option.bind_some, hbytes, hread,
    hindex, hseekElement, File.put, advance_eq hN (show N < 2 ^ 31 by omega) hw]
  rw [IntFile.fwrite_ints (by omega), IntFile.fwrite_ints (by rw [List.length_set]; omega)]

/-- What `readFromBufferFile` returns, and what it does to the `int`s of the file. -/
theorem readFromBufferFile_eq (hN : 0 < N) (hsize : 4 * (N + 1) < 2 ^ 31)
    (hbytes : file.bytes = vs.flatMap intBytes) (hlen : vs.length = N + 2)
    (hindex : vs[N]? = some (BitVec.ofNat 32 r)) (hr : r < N) (hvalue : vs[r]? = some value) :
    readFromBufferFile (BitVec.ofNat 32 N) file = some (value,
      { bytes := (vs.set N (BitVec.ofNat 32 ((r + 1) % N))).flatMap intBytes
        writes := file.writes ++ [(.index, 4 * N)] }) := by
  have hseek := IntFile.fseek_sizeofInts (n := BitVec.ofNat 32 N) rfl (by omega)
  have hread := IntFile.fread_ints vs N
  have hseekElement := IntFile.fseek_sizeofInts (n := BitVec.ofNat 32 r) rfl (by omega)
  have hreadElement := IntFile.fread_ints vs r
  simp only [readFromBufferFile, hseek, Option.bind_eq_bind, Option.bind_some, hbytes, hread,
    hindex, hseekElement, hreadElement, hvalue, File.put,
    advance_eq hN (show N < 2 ^ 31 by omega) hr]
  rw [IntFile.fwrite_ints (by omega)]

end Layout

/-! ### The queue -/

section Queue

variable {N : ℕ} {s s' : State} {vs : List CInt}

/-- Element writes stay below the index cells, index updates stay in them. -/
def InArea (N : ℕ) : Target × ℕ → Prop
  | (.element, pos) => pos + 4 ≤ 4 * N
  | (.index, pos) => 4 * N ≤ pos ∧ pos + 4 ≤ 4 * (N + 2)

/-- The `int`s `vs` of the file are the indexes of the queue and its unread values, at
their places. -/
structure Holds (N : ℕ) (s : State) (vs : List CInt) : Prop where
  bytes : s.file.bytes = vs.flatMap intBytes
  length : vs.length = N + 2
  readIndex : vs[N]? = some (BitVec.ofNat 32 ((loads s.trace).length % N))
  writeIndex : vs[N + 1]? = some (BitVec.ofNat 32 ((stores s.trace).length % N))
  unread : ∀ k, (loads s.trace).length ≤ k → k < (stores s.trace).length →
    vs[k % N]? = (stores s.trace)[k]?

/-- The file is a queue of capacity `N`, and has been overwritten in the right areas. -/
structure Inv (N : ℕ) (s : State) : Prop where
  exists_holds : ∃ vs, Holds N s vs
  fifo : Fifo N s.trace
  inArea : ∀ w ∈ s.file.writes, InArea N w

theorem inv_init (hN : 0 < N) (hsize : 4 * (N + 2) < 2 ^ 31) :
    Inv N ⟨initFile (BitVec.ofNat 32 N), []⟩ where
  exists_holds := by
    have hcount : (BitVec.ofNat 32 N + 2 : CInt).toInt.toNat = N + 2 := by
      have hsum : (BitVec.ofNat 32 N + 2 : CInt) = BitVec.ofNat 32 (N + 2) :=
        BitVec.ofNat_add_ofNat N 2
      rw [hsum, toInt_ofNat_of_lt (by omega), Int.toNat_natCast]
    refine ⟨List.replicate (N + 2) 0, ?_, List.length_replicate, ?_, ?_, ?_⟩
    · show zeros (BitVec.ofNat 32 N + 2 : CInt).toInt.toNat = _
      rw [hcount, zeros_eq]
    · simp
    · simp
    · intro k _ hk
      exact absurd hk (Nat.not_lt_zero k)
  fifo := .nil
  inArea _ hw := absurd hw List.not_mem_nil

/-- `writeToBufferFile` on a queue that is not full. -/
theorem Inv.write (hs : Inv N s) (hN : 0 < N) (hsize : 4 * (N + 2) < 2 ^ 31) (value : CInt)
    (hroom : (stores s.trace).length < (loads s.trace).length + N) :
    ∃ file, writeToBufferFile value (BitVec.ofNat 32 N) s.file = some file ∧
      Inv N ⟨file, s.trace ++ [.store () value]⟩ := by
  obtain ⟨⟨vs, hbytes, hlen, hread, hwrite, hunread⟩, hfifo, harea⟩ := hs
  have hw : (stores s.trace).length % N < N := Nat.mod_lt _ hN
  refine ⟨_, writeToBufferFile_eq hN (by omega) hbytes hlen hwrite hw,
    ⟨_, rfl, ?_, ?_, ?_, ?_⟩, ?_, ?_⟩
  · rw [List.length_set, List.length_set, hlen]
  · rw [List.getElem?_set_ne (by omega), List.getElem?_set_ne (by omega), hread,
      loads_append_store]
  · rw [List.getElem?_set_self (by rw [List.length_set]; omega), stores_append_store,
      List.length_append, List.length_singleton, Nat.mod_add_mod]
  · intro k hlo hhi
    rw [loads_append_store] at hlo
    rw [stores_append_store, List.length_append, List.length_singleton] at hhi
    have hmod : k % N < N := Nat.mod_lt _ hN
    rw [List.getElem?_set_ne (by omega), stores_append_store]
    rcases Nat.lt_succ_iff_lt_or_eq.mp hhi with hlt | rfl
    · -- the value is older: its cell is another one
      have hne : k % N ≠ (stores s.trace).length % N := mod_ne_mod hlt (by omega)
      rw [List.getElem?_set_ne hne.symm, hunread k hlo hlt, List.getElem?_append_left hlt]
    · rw [List.getElem?_set_self (by omega), List.getElem?_concat_length]
  · exact .store () value hfifo hroom
  · intro w hmem
    rcases List.mem_append.mp hmem with hmem | hnew
    · rcases List.mem_append.mp hmem with hold | hnew
      · exact harea w hold
      · rw [List.mem_singleton.mp hnew]
        show 4 * ((stores s.trace).length % N) + 4 ≤ 4 * N
        omega
    · rw [List.mem_singleton.mp hnew]
      show 4 * N ≤ 4 * (N + 1) ∧ 4 * (N + 1) + 4 ≤ 4 * (N + 2)
      omega

/-- `readFromBufferFile` on a queue that is not empty. -/
theorem Inv.read (hs : Inv N s) (hN : 0 < N) (hsize : 4 * (N + 2) < 2 ^ 31)
    (hne : (loads s.trace).length < (stores s.trace).length) :
    ∃ value file, readFromBufferFile (BitVec.ofNat 32 N) s.file = some (value, file) ∧
      Inv N ⟨file, s.trace ++ [.load () value]⟩ := by
  obtain ⟨⟨vs, hbytes, hlen, hread, hwrite, hunread⟩, hfifo, harea⟩ := hs
  have hr : (loads s.trace).length % N < N := Nat.mod_lt _ hN
  have hoccupancy := hfifo.occupancy
  have hvalue := hunread _ le_rfl hne
  obtain ⟨value, hstored⟩ : ∃ v, (stores s.trace)[(loads s.trace).length]? = some v :=
    ⟨_, List.getElem?_eq_getElem hne⟩
  rw [hstored] at hvalue
  refine ⟨value, _, readFromBufferFile_eq hN (by omega) hbytes hlen hread hr hvalue,
    ⟨_, rfl, ?_, ?_, ?_, ?_⟩, ?_, ?_⟩
  · rw [List.length_set, hlen]
  · rw [List.getElem?_set_self (by omega), loads_append_load, List.length_append,
      List.length_singleton, Nat.mod_add_mod]
  · rw [List.getElem?_set_ne (by omega), hwrite, stores_append_load]
  · intro k hlo hhi
    rw [loads_append_load, List.length_append, List.length_singleton] at hlo
    rw [stores_append_load] at hhi
    have hmod : k % N < N := Nat.mod_lt _ hN
    rw [List.getElem?_set_ne (by omega), stores_append_load]
    exact hunread k (by omega) hhi
  · exact .load () hfifo hstored
  · intro w hmem
    rcases List.mem_append.mp hmem with hold | hnew
    · exact harea w hold
    · rw [List.mem_singleton.mp hnew]
      show 4 * N ≤ 4 * N ∧ 4 * N + 4 ≤ 4 * (N + 2)
      omega

/-- An allowed call succeeds, and leaves a queue. -/
theorem Inv.exists_step (hs : Inv N s) (hN : 0 < N) (hsize : 4 * (N + 2) < 2 ^ 31) {call : Call}
    (hallowed : Allowed N s call) :
    ∃ s', (program (BitVec.ofNat 32 N)).step s call = some s' ∧ Inv N s' := by
  cases call with
  | write value =>
    obtain ⟨file, hfile, hs'⟩ := hs.write hN hsize value hallowed
    refine ⟨_, ?_, hs'⟩
    show (writeToBufferFile value (BitVec.ofNat 32 N) s.file).map _ = _
    rw [hfile, Option.map_some]
  | read =>
    obtain ⟨value, file, hfile, hs'⟩ := hs.read hN hsize hallowed
    refine ⟨_, ?_, hs'⟩
    show (readFromBufferFile (BitVec.ofNat 32 N) s.file).map _ = _
    rw [hfile, Option.map_some]

theorem inv_of_reachableVia (hN : 0 < N) (hsize : 4 * (N + 2) < 2 ^ 31)
    (h : (program (BitVec.ofNat 32 N)).ReachableVia (Allowed N) s) : Inv N s := by
  refine h.invariant (fun s hs => hs ▸ inv_init hN hsize) fun s call s' hs hallowed hstep => ?_
  obtain ⟨u, hu, hinv⟩ := hs.exists_step hN hsize hallowed
  rw [hu] at hstep
  cases hstep
  exact hinv

/-- **The file is a bounded queue**: the trace of the calls is one of a first-in first-out
queue of capacity `N`, no call fails, the indexes stay in range, elements and indexes are
written each in their own area, and the file keeps its length. -/
theorem bounded_queue (N : ℕ) (hN : 0 < N) (hsize : 4 * (N + 2) < 2 ^ 31)
    (h : (program (BitVec.ofNat 32 N)).ReachableVia (Allowed N) s) :
    Fifo N s.trace ∧
      (∀ call, Allowed N s call → ∃ s', (program (BitVec.ofNat 32 N)).step s call = some s') ∧
      (∃ read_index write_index : CInt,
        fread s.file.bytes (4 * N) = some read_index ∧
        fread s.file.bytes (4 * (N + 1)) = some write_index ∧
        (0 ≤ read_index.toInt ∧ read_index.toInt < N) ∧
        0 ≤ write_index.toInt ∧ write_index.toInt < N) ∧
      (∀ w ∈ s.file.writes, InArea N w) ∧
      s.file.bytes.length = 4 * (N + 2) := by
  have hs := inv_of_reachableVia hN hsize h
  obtain ⟨vs, hvs⟩ := hs.exists_holds
  refine ⟨hs.fifo, fun call hallowed => ?_, ?_, hs.inArea, ?_⟩
  · obtain ⟨s', hs', -⟩ := hs.exists_step hN hsize hallowed
    exact ⟨s', hs'⟩
  · have hrange : ∀ k, 0 ≤ (BitVec.ofNat 32 (k % N) : CInt).toInt ∧
        (BitVec.ofNat 32 (k % N) : CInt).toInt < N := by
      intro k
      have hmod : k % N < N := Nat.mod_lt _ hN
      rw [toInt_ofNat_of_lt (by omega)]
      omega
    refine ⟨_, _, ?_, ?_, hrange (loads s.trace).length, hrange (stores s.trace).length⟩
    · rw [hvs.bytes, IntFile.fread_ints, hvs.readIndex]
    · rw [hvs.bytes, IntFile.fread_ints, hvs.writeIndex]
  · rw [hvs.bytes, IntFile.length_ints, hvs.length]

/-- Three writes and a read on a file of two elements, past its end. -/
theorem bounded_queue_two : ∃ s, (program 2).ReachableVia (Allowed 2) s ∧
    stores s.trace = [5, 7, 9] ∧ loads s.trace = [5] ∧ Fifo 2 s.trace := by
  have hrun : ∃ s, (program 2).ReachableVia (Allowed 2) s ∧
      s.trace = [.store () 5, .store () 7, .load () 5, .store () 9] := by
    refine ⟨_, ((((Machine.ReachableVia.init rfl).step (.write 5) ?_ rfl).step (.write 7) ?_
      rfl).step .read ?_ rfl).step (.write 9) ?_ rfl, rfl⟩
    all_goals
      show _ < _
      decide
  obtain ⟨s, hs, htrace⟩ := hrun
  refine ⟨s, hs, ?_, ?_, (bounded_queue 2 (by decide) (by decide) hs).1⟩
  · rw [htrace]
    rfl
  · rw [htrace]
    rfl

end Queue

end BufferFile
