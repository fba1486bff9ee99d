/-
Processes that exit in the middle of a call on the ring buffer file of Lab03/es3.

`handle_error` ends the process at the first call of the library that fails, so the file may be
left with a part of what `writeToBufferFile` or `readFromBufferFile` means to do to it.

* `writeToBufferFileChecked`, `readFromBufferFileChecked` — the two functions, call by call;
* `attempts` — processes that work on the file, each up to a call that fails;
* `failure_atomic` — the file holds the queue before the call or the one after it;
* `write_read_comm_reachable` — the two operations commute in the states that are reached.
-/
import SistemiDiCalcolo.BufferFileQueue
import SistemiDiCalcolo.CheckedCalls

open AccessLog (Byte intBytes)
open IntFile (sizeofInts fseek fread fwrite)
open Checked (look change outcome Leaves)

namespace BufferFile

/-- `fopen` of a file that exists. -/
def fopen : Checked File Unit := look fun _ => some ()

def fclose : Checked File Unit := look fun _ => some ()

/-- `writeToBufferFile`, where each call may be the one that fails. -/
def writeToBufferFileChecked (value numElems : CInt) : Checked File Unit := do
  fopen
  let windex_offset := sizeofInts (numElems + 1)
  let pos ← look fun _ => fseek windex_offset
  let write_index ← look fun file => fread file.bytes pos
  let element_offset := sizeofInts write_index
  let pos ← look fun _ => fseek element_offset
  change fun file => file.put .element pos value
  let write_index := (write_index + 1).srem numElems
  let pos ← look fun _ => fseek windex_offset
  change fun file => file.put .index pos write_index
  fclose
  pure ()

/-- `readFromBufferFile`, where each call may be the one that fails. -/
def readFromBufferFileChecked (numElems : CInt) : Checked File CInt := do
  fopen
  let rindex_offset := sizeofInts numElems
  let pos ← look fun _ => fseek rindex_offset
  let read_index ← look fun file => fread file.bytes pos
  let element_offset := sizeofInts read_index
  let pos ← look fun _ => fseek element_offset
  let value ← look fun file => fread file.bytes pos
  let read_index := (read_index + 1).srem numElems
  let pos ← look fun _ => fseek rindex_offset
  change fun file => file.put .index pos read_index
  fclose
  pure value

/-! ### Where a call can stop -/

section Stops

variable {N k : ℕ} {value numElems : CInt} {file file' : File}

/-- The element is written, the index is not. -/
def ElementWritten (value numElems : CInt) (file file' : File) : Prop :=
  ∃ pos write_index elementPos, fseek (sizeofInts (numElems + 1)) = some pos ∧
    fread file.bytes pos = some write_index ∧
    fseek (sizeofInts write_index) = some elementPos ∧ file' = file.put .element elementPos value

/-- A process leaves the file as it was, or with the element alone, or with all of it. -/
theorem writeToBufferFileChecked_leaves :
    Leaves (writeToBufferFileChecked value numElems) file
      (fun _ file' => writeToBufferFile value numElems file = some file')
      fun file' => file' = file ∨ ElementWritten value numElems file file' ∨
        writeToBufferFile value numElems file = some file' := by
  refine Checked.leaves_look (.inl rfl) fun _ _ => ?_
  refine Checked.leaves_look (.inl rfl) fun pos hpos => ?_
  refine Checked.leaves_look (.inl rfl) fun write_index hindex => ?_
  refine Checked.leaves_look (.inl rfl) fun elementPos helement => ?_
  refine Checked.leaves_change (.inl rfl) ?_
  have hpart : ElementWritten value numElems file (file.put .element elementPos value) :=
    ⟨pos, write_index, elementPos, hpos, hindex, helement, rfl⟩
  refine Checked.leaves_look (.inr (.inl hpart)) fun pos' hpos' => ?_
  refine Checked.leaves_change (.inr (.inl hpart)) ?_
  have hwhole : writeToBufferFile value numElems file =
      some ((file.put .element elementPos value).put .index pos'
        ((write_index + 1).srem numElems)) := by
    simp only [writeToBufferFile, hpos, hindex, helement, Option.bind_eq_bind, Option.bind_some]
    obtain rfl : pos = pos' := Option.some.inj (hpos.symm.trans hpos')
    rfl
  exact Checked.leaves_look (.inr (.inr hwhole)) fun _ _ => Checked.leaves_pure hwhole

/-- A process leaves the file as it was, or with the index written. -/
theorem readFromBufferFileChecked_leaves :
    Leaves (readFromBufferFileChecked numElems) file
      (fun value file' => readFromBufferFile numElems file = some (value, file'))
      fun file' => file' = file ∨
        ∃ value, readFromBufferFile numElems file = some (value, file') := by
  refine Checked.leaves_look (.inl rfl) fun _ _ => ?_
  refine Checked.leaves_look (.inl rfl) fun pos hpos => ?_
  refine Checked.leaves_look (.inl rfl) fun read_index hindex => ?_
  refine Checked.leaves_look (.inl rfl) fun elementPos helement => ?_
  refine Checked.leaves_look (.inl rfl) fun value hvalue => ?_
  refine Checked.leaves_look (.inl rfl) fun pos' hpos' => ?_
  refine Checked.leaves_change (.inl rfl) ?_
  have hwhole : readFromBufferFile numElems file =
      some (value, file.put .index pos' ((read_index + 1).srem numElems)) := by
    simp only [readFromBufferFile, hpos, hindex, helement, hvalue, Option.bind_eq_bind,
      Option.bind_some]
    obtain rfl : pos = pos' := Option.some.inj (hpos.symm.trans hpos')
    rfl
  exact Checked.leaves_look (.inr ⟨value, hwhole⟩) fun _ _ => Checked.leaves_pure hwhole

/-- With enough successful calls, a process makes the whole call. -/
theorem outcome_writeToBufferFileChecked (h : writeToBufferFile value numElems file = some file') :
    outcome (writeToBufferFileChecked value numElems) (k + 8) file = (some (), ⟨k, file'⟩) := by
  simp only [writeToBufferFile, Option.bind_eq_bind, Option.bind_eq_some_iff] at h
  obtain ⟨pos, hpos, write_index, hindex, elementPos, helement, pos', hpos', hfile⟩ := h
  obtain rfl := Option.some.inj hfile
  refine Eq.trans (Checked.outcome_look rfl) ?_
  refine Eq.trans (Checked.outcome_look hpos) ?_
  refine Eq.trans (Checked.outcome_look hindex) ?_
  refine Eq.trans (Checked.outcome_look helement) ?_
  refine Checked.outcome_change.trans ?_
  refine Eq.trans (Checked.outcome_look hpos') ?_
  refine Checked.outcome_change.trans ?_
  exact Checked.outcome_look rfl

theorem outcome_readFromBufferFileChecked
    (h : readFromBufferFile numElems file = some (value, file')) :
    outcome (readFromBufferFileChecked numElems) (k + 8) file = (some value, ⟨k, file'⟩) := by
  simp only [readFromBufferFile, Option.bind_eq_bind, Option.bind_eq_some_iff] at h
  obtain ⟨pos, hpos, read_index, hindex, elementPos, helement, v, hvalue, pos', hpos', hfile⟩ := h
  obtain ⟨rfl, rfl⟩ := Prod.mk.inj (Option.some.inj hfile)
  refine Eq.trans (Checked.outcome_look rfl) ?_
  refine Eq.trans (Checked.outcome_look hpos) ?_
  refine Eq.trans (Checked.outcome_look hindex) ?_
  refine Eq.trans (Checked.outcome_look helement) ?_
  refine Eq.trans (Checked.outcome_look hvalue) ?_
  refine Eq.trans (Checked.outcome_look hpos') ?_
  refine Checked.outcome_change.trans ?_
  exact Checked.outcome_look rfl

end Stops

/-! ### The calls on a queue -/

namespace Call

/-- The process that makes the call, with the value it reads, if any. -/
def checked (numElems : CInt) : Call → Checked File (Option CInt)
  | .write value => do
    writeToBufferFileChecked value numElems
    pure none
  | .read => do
    let value ← readFromBufferFileChecked numElems
    pure (some value)

/-- The call as a whole: what it reads, if anything, and the file after it. -/
def whole (numElems : CInt) (call : Call) (file : File) : Option (Option CInt × File) :=
  match call with
  | .write value => (writeToBufferFile value numElems file).map fun file => (none, file)
  | .read => (readFromBufferFile numElems file).map fun (value, file) => (some value, file)

/-- The file that a process leaves which makes the call with `left` successful calls of the
library. -/
def leave (numElems : CInt) (call : Call) (left : ℕ) (file : File) : File :=
  (outcome (call.checked numElems) left file).2.shared

/-- The ring is not full, respectively not empty. -/
def Fits (N : ℕ) (q : List CInt) : Call → Prop
  | .write _ => q.length < N
  | .read => 0 < q.length

/-- The queue after the call. -/
def after (q : List CInt) : Call → List CInt
  | .write value => q ++ [value]
  | .read => q.tail

/-- The value that the call reads from the queue. -/
def value (q : List CInt) : Call → Option CInt
  | .write _ => none
  | .read => q.head?

/-- The place of the index that the call moves, in the last 8 bytes of the file. -/
def indexPos (N : ℕ) : Call → ℕ
  | .write _ => 4 * (N + 1)
  | .read => 4 * N

/-- The last thing that the process has written to `file` is the index, at its place. -/
def committed (N : ℕ) (call : Call) (file file' : File) : Bool :=
  (file'.writes.drop file.writes.length).getLast? = some (.index, call.indexPos N)

/-- The queue when a process that made the call on `file` has left `file'`. -/
def queue (N : ℕ) (call : Call) (q : List CInt) (file file' : File) : List CInt :=
  if call.committed N file file' then call.after q else q

end Call

section Queue

variable {N k : ℕ} {q : List CInt} {call : Call} {file : File} {value : CInt}

/-- What the process has written decides. -/
theorem committed_append {file' : File} {ws : List (Target × ℕ)}
    (h : file'.writes = file.writes ++ ws) : call.committed N file file' =
      decide (ws.getLast? = some (.index, call.indexPos N)) := by
  rw [Call.committed, h, List.drop_left]

theorem queue_self : call.queue N q file file = q := by
  rw [Call.queue, committed_append (List.append_nil _).symm]
  rfl

/-- A process leaves the file as it was, or with the element alone, or makes the whole call. -/
theorem leave_cases (numElems : CInt) (call : Call) (file : File) (left : ℕ) :
    call.leave numElems left file = file ∨
      (∃ value, call = .write value ∧
        ElementWritten value numElems file (call.leave numElems left file)) ∨
      ∃ result, call.whole numElems file = some (result, call.leave numElems left file) := by
  have hleaves : Leaves (call.checked numElems) file
      (fun result file' => call.whole numElems file = some (result, file'))
      fun file' => file' = file ∨
        (∃ value, call = .write value ∧ ElementWritten value numElems file file') ∨
        ∃ result, call.whole numElems file = some (result, file') := by
    cases call with
    | write value =>
      refine Checked.leaves_bind (writeToBufferFileChecked_leaves.mono fun file' h => ?_)
        fun _ _ h => Checked.leaves_pure (Option.map_eq_some_iff.mpr ⟨_, h, rfl⟩)
      rcases h with hsame | hpart | hwhole
      · exact .inl hsame
      · exact .inr (.inl ⟨value, rfl, hpart⟩)
      · exact .inr (.inr ⟨_, Option.map_eq_some_iff.mpr ⟨_, hwhole, rfl⟩⟩)
    | read =>
      refine Checked.leaves_bind (readFromBufferFileChecked_leaves.mono fun file' h => ?_)
        fun _ _ h => Checked.leaves_pure (Option.map_eq_some_iff.mpr ⟨_, h, rfl⟩)
      rcases h with hsame | ⟨value, hwhole⟩
      · exact .inl hsame
      · exact .inr (.inr ⟨_, Option.map_eq_some_iff.mpr ⟨_, hwhole, rfl⟩⟩)
  exact hleaves.shared (fun result _ h => .inr (.inr ⟨result, h⟩)) left

theorem outcome_whole {numElems : CInt} {result : Option CInt} {file' : File}
    (h : call.whole numElems file = some (result, file')) :
    outcome (call.checked numElems) (k + 8) file = (some result, ⟨k, file'⟩) := by
  cases call with
  | write value =>
    obtain ⟨_, hwrite, heq⟩ := Option.map_eq_some_iff.mp h
    obtain ⟨rfl, rfl⟩ := Prod.mk.inj heq
    rw [Call.checked, Checked.outcome_bind, outcome_writeToBufferFileChecked hwrite]
    rfl
  | read =>
    obtain ⟨_, hread, heq⟩ := Option.map_eq_some_iff.mp h
    obtain ⟨rfl, rfl⟩ := Prod.mk.inj heq
    rw [Call.checked, Checked.outcome_bind, outcome_readFromBufferFileChecked hread]
    rfl

/-- The element alone changes nothing. -/
theorem ElementWritten.queue {numElems : CInt} {file' : File}
    (h : ElementWritten value numElems file file') : call.queue N q file file' = q := by
  obtain ⟨pos, write_index, elementPos, -, -, -, rfl⟩ := h
  rw [Call.queue, committed_append rfl]
  rfl

/-- The index at its place is all it takes. -/
theorem queue_of_index {file' : File} (ws : List (Target × ℕ))
    (h : file'.writes = file.writes ++ (ws ++ [(.index, call.indexPos N)])) :
    call.queue N q file file' = call.after q := by
  rw [Call.queue, committed_append h, List.getLast?_concat, decide_eq_true rfl, if_pos rfl]

/-- The element alone, on the `int`s of the file. -/
theorem ElementWritten.bytes {vs : List CInt} {r w : ℕ} {file' : File}
    (h : ElementWritten value (BitVec.ofNat 32 N) file file') (hsize : 4 * (N + 1) < 2 ^ 31)
    (hbytes : file.bytes = vs.flatMap intBytes) (hcells : Cells N vs r w q) :
    file'.bytes = (vs.set w value).flatMap intBytes := by
  obtain ⟨pos, write_index, elementPos, hpos, hindex, helement, rfl⟩ := h
  have hsucc : (BitVec.ofNat 32 N + 1 : CInt) = BitVec.ofNat 32 (N + 1) :=
    BitVec.ofNat_add_ofNat N 1
  have hw := hcells.ring.write_lt
  have hlen := hcells.length
  rw [IntFile.fseek_sizeofInts hsucc hsize] at hpos
  obtain rfl := Option.some.inj hpos
  rw [hbytes, IntFile.fread_ints, hcells.writeIndex] at hindex
  obtain rfl := Option.some.inj hindex
  rw [IntFile.fseek_sizeofInts rfl (by omega)] at helement
  obtain rfl := Option.some.inj helement
  rw [← IntFile.fwrite_ints (by omega), ← hbytes]
  rfl

/-- The whole call moves its index: it reads the value from the queue, and leaves the queue
after it. -/
theorem represents_whole (hN : 0 < N) (hsize : 4 * (N + 1) < 2 ^ 31)
    (h : Represents N file.bytes q) (hfits : call.Fits N q) :
    ∃ file', call.whole (BitVec.ofNat 32 N) file = some (call.value q, file') ∧
      Represents N file'.bytes (call.after q) ∧ call.queue N q file file' = call.after q := by
  obtain ⟨vs, r, w, hbytes, hcells⟩ := h
  cases call with
  | write value =>
    refine ⟨_, Option.map_eq_some_iff.mpr ⟨_, writeToBufferFile_eq hN hsize hbytes hcells.length
      hcells.writeIndex hcells.ring.write_lt, rfl⟩, ?_, ?_⟩
    · exact ⟨_, r, _, rfl, hcells.write hfits value⟩
    · exact queue_of_index [_] (List.append_assoc _ _ _)
  | read =>
    obtain ⟨value, t, rfl⟩ := List.exists_cons_of_length_pos hfits
    obtain ⟨hvalue, hread⟩ := hcells.read
    refine ⟨_, Option.map_eq_some_iff.mpr ⟨_, readFromBufferFile_eq hN hsize hbytes hcells.length
      hcells.readIndex hcells.ring.read_lt hvalue, rfl⟩, ?_, ?_⟩
    · exact ⟨_, _, w, rfl, hread⟩
    · exact queue_of_index [] rfl

/-- Wherever a process stops, the file holds the queue before the call, or the one after it if
the index is written. -/
theorem represents_leave (hN : 0 < N) (hsize : 4 * (N + 1) < 2 ^ 31)
    (h : Represents N file.bytes q) (hfits : call.Fits N q) (left : ℕ) :
    Represents N (call.leave (BitVec.ofNat 32 N) left file).bytes
      (call.queue N q file (call.leave (BitVec.ofNat 32 N) left file)) := by
  rcases leave_cases (BitVec.ofNat 32 N) call file left with
    hsame | ⟨value, rfl, hpart⟩ | ⟨result, hwhole⟩
  · rw [hsame, queue_self]
    exact h
  · -- the element stands outside the queue
    obtain ⟨vs, r, w, hbytes, hcells⟩ := h
    rw [hpart.queue]
    exact ⟨_, r, w, hpart.bytes hsize hbytes hcells, hcells.element hfits value⟩
  · obtain ⟨file', hfile', hrep, hafter⟩ := represents_whole hN hsize h hfits
    rw [hwhole] at hfile'
    obtain ⟨-, rfl⟩ := Prod.mk.inj (Option.some.inj hfile')
    rw [hafter]
    exact hrep

/-- With enough successful calls, it is the one after it. -/
theorem queue_whole (hN : 0 < N) (hsize : 4 * (N + 1) < 2 ^ 31)
    (h : Represents N file.bytes q) (hfits : call.Fits N q) {left : ℕ} (hleft : 8 ≤ left) :
    (outcome (call.checked (BitVec.ofNat 32 N)) left file).1 = some (call.value q) ∧
      call.queue N q file (call.leave (BitVec.ofNat 32 N) left file) = call.after q := by
  obtain ⟨file', hwhole, -, hafter⟩ := represents_whole hN hsize h hfits
  obtain ⟨k, rfl⟩ := Nat.exists_eq_add_of_le' hleft
  rw [Call.leave, outcome_whole hwhole]
  exact ⟨rfl, hafter⟩

end Queue

/-! ### Large files -/

section Large

variable {N : ℕ} {file : File}

/-- The index of the write is out of reach, or the end of the file is. -/
theorem fseek_large (hN : N < 2 ^ 31) (hlarge : 2 ^ 31 ≤ 4 * (N + 1)) {pos : ℕ}
    (h : fseek (sizeofInts (BitVec.ofNat 32 N + 1)) = some pos) : 2 ^ 31 ≤ 4 * N := by
  by_contra hlt
  obtain rfl : N = 2 ^ 29 - 1 := by omega
  have hnone : fseek (sizeofInts (BitVec.ofNat 32 (2 ^ 29 - 1) + 1)) = none := by decide
  rw [hnone] at h
  cases h

/-- A write to such a file leaves its end alone, and the queue with it. -/
theorem Blank.leave_write (h : Blank N file.bytes) (hN : N < 2 ^ 31)
    (hlarge : 2 ^ 31 ≤ 4 * (N + 1)) (value : CInt) (left : ℕ) (q : List CInt) :
    Blank N ((Call.write value).leave (BitVec.ofNat 32 N) left file).bytes ∧
      (Call.write value).queue N q file
        ((Call.write value).leave (BitVec.ofNat 32 N) left file) = q := by
  rcases leave_cases (BitVec.ofNat 32 N) (.write value) file left with
    hsame | ⟨_, -, hpart⟩ | ⟨result, hwhole⟩
  · rw [hsame]
    exact ⟨h, queue_self⟩
  · refine ⟨?_, hpart.queue⟩
    obtain ⟨pos, write_index, elementPos, hpos, -, helement, heq⟩ := hpart
    rw [heq]
    exact h.put (fseek_large hN hlarge hpos) helement _
  · obtain ⟨file', hwrite, heq⟩ := Option.map_eq_some_iff.mp hwhole
    obtain ⟨-, hfile'⟩ := Prod.mk.inj heq
    simp only [writeToBufferFile, Option.bind_eq_bind, Option.bind_eq_some_iff] at hwrite
    obtain ⟨pos, hpos, write_index, -, elementPos, helement, pos', hpos', heq⟩ := hwrite
    have hend := fseek_large hN hlarge hpos
    rw [← hfile', ← Option.some.inj heq]
    refine ⟨(h.put hend helement _).put hend hpos' _, ?_⟩
    -- the index of the write is at `4 * (N + 1)`, which is no `int`
    obtain ⟨k, rfl, hk⟩ := IntFile.fseek_sizeofInts_eq_some hpos'
    have hne : 4 * k ≠ Call.indexPos N (.write value) := Nat.ne_of_lt (hk.trans_le hlarge)
    rw [Call.queue, committed_append (List.append_assoc _ _ _), List.getLast?_concat,
      decide_eq_false, if_neg Bool.false_ne_true]
    intro heq
    exact hne (Prod.mk.inj (Option.some.inj heq)).2

end Large

/-! ### Processes that come and go -/

/-- The file; beside it, the queue: the values whose writes have moved the write index, without
those whose reads have moved the read index. -/
structure Shared where
  file : File
  queue : List CInt

/-- A process makes a call with `left` successful calls of the library. -/
structure Attempt where
  call : Call
  left : ℕ

/-- The processes that work on the file after `initFile(numElems, f)`; beyond the `int`s
`numElems+2` has no meaning. -/
def attempts (numElems : CInt) : Machine Shared Attempt where
  init s := numElems.saddOverflow 2 = false ∧ s = ⟨initFile numElems, []⟩
  step s a :=
    let file := a.call.leave numElems a.left s.file
    some ⟨file, a.call.queue numElems.toInt.toNat s.queue s.file file⟩

/-- The ring has room for the call, respectively a value for it. -/
def Guarded (numElems : CInt) (s : Shared) (a : Attempt) : Prop :=
  a.call.Fits numElems.toInt.toNat s.queue

section Attempts

variable {N : ℕ} {numElems : CInt} {s : Shared} {value : CInt}

/-- The file holds the queue; if it is a large one, it is as `initFile` left it for all
the queue is concerned. -/
structure HoldsQueue (N : ℕ) (s : Shared) : Prop where
  represents : Represents N s.file.bytes s.queue
  large : 2 ^ 31 ≤ 4 * (N + 1) → Blank N s.file.bytes ∧ s.queue = []

theorem holdsQueue_init (hN : 0 < N) (hlt : N < 2 ^ 31)
    (hover : (BitVec.ofNat 32 N : CInt).saddOverflow 2 = false) :
    HoldsQueue N ⟨initFile (BitVec.ofNat 32 N), []⟩ := by
  have hcount : (BitVec.ofNat 32 N + 2 : CInt).toInt.toNat = N + 2 := by
    rw [BitVec.toInt_add_of_not_saddOverflow (by rw [hover]; exact Bool.false_ne_true),
      toInt_ofNat_of_lt hlt]
    show ((N : ℤ) + 2).toNat = N + 2
    omega
  have hblank : Blank N (initFile (BitVec.ofNat 32 N)).bytes := by
    rw [initFile, hcount]
    exact blank_initFile N
  exact ⟨hblank.represents_nil hN, fun _ => ⟨hblank, rfl⟩⟩

/-- A process that is gone leaves the file with the queue. -/
theorem HoldsQueue.step (h : HoldsQueue N s) (hN : 0 < N) (hlt : N < 2 ^ 31) {call : Call}
    (hfits : call.Fits N s.queue) (left : ℕ) :
    HoldsQueue N ⟨call.leave (BitVec.ofNat 32 N) left s.file,
      call.queue N s.queue s.file (call.leave (BitVec.ofNat 32 N) left s.file)⟩ := by
  rcases Nat.lt_or_ge (4 * (N + 1)) (2 ^ 31) with hsize | hlarge
  · exact ⟨represents_leave hN hsize h.represents hfits left,
      fun hlarge => absurd hsize (Nat.not_lt_of_le hlarge)⟩
  · obtain ⟨hblank, hqueue⟩ := h.large hlarge
    rw [hqueue] at hfits ⊢
    cases call with
    | write value =>
      obtain ⟨hblank', hsame⟩ := hblank.leave_write hlt hlarge value left []
      rw [hsame]
      exact ⟨hblank'.represents_nil hN, fun _ => ⟨hblank', rfl⟩⟩
    | read => exact absurd hfits (Nat.lt_irrefl 0)

theorem holdsQueue_of_reachableVia (hN : 0 < N) (hlt : N < 2 ^ 31)
    (hnum : (BitVec.ofNat 32 N : CInt).toInt.toNat = N)
    (h : (attempts (BitVec.ofNat 32 N)).ReachableVia (Guarded (BitVec.ofNat 32 N)) s) :
    HoldsQueue N s := by
  refine h.invariant (fun s hs => ?_) fun s a s' hs hok hstep => ?_
  · obtain ⟨hover, rfl⟩ := hs
    exact holdsQueue_init hN hlt hover
  · obtain rfl := Option.some.inj hstep
    rw [Guarded, hnum] at hok
    show HoldsQueue N ⟨_, Call.queue (BitVec.ofNat 32 N : CInt).toInt.toNat _ _ _ _⟩
    rw [hnum]
    exact hs.step hN hlt hok a.left

/-- A whole call of a process that goes on with the queue. -/
theorem attempts_whole (call : Call) {file : File} {result : Option CInt} (hN : 0 < N)
    (hsize : 4 * (N + 2) < 2 ^ 31)
    (h : (attempts (BitVec.ofNat 32 N)).ReachableVia (Guarded (BitVec.ofNat 32 N)) s)
    (hfits : call.Fits N s.queue)
    (hwhole : call.whole (BitVec.ofNat 32 N) s.file = some (result, file)) :
    (attempts (BitVec.ofNat 32 N)).ReachableVia (Guarded (BitVec.ofNat 32 N))
      ⟨file, call.after s.queue⟩ := by
  have hnum : (BitVec.ofNat 32 N : CInt).toInt.toNat = N := by
    rw [toInt_ofNat_of_lt (by omega), Int.toNat_natCast]
  have hs := holdsQueue_of_reachableVia hN (by omega) hnum h
  have hleave : call.leave (BitVec.ofNat 32 N) 8 s.file = file := by
    rw [Call.leave, ← Nat.zero_add 8, outcome_whole hwhole]
  have hafter := (queue_whole hN (by omega) hs.represents hfits (le_refl 8)).2
  refine h.step ⟨call, 8⟩ (show call.Fits _ _ by rw [hnum]; exact hfits) ?_
  show some (Shared.mk (call.leave _ 8 s.file) (call.queue _ _ _ (call.leave _ 8 s.file))) = _
  rw [hnum, hafter, hleave]

theorem not_saddOverflow (hN : N + 2 < 2 ^ 31) :
    (BitVec.ofNat 32 N : CInt).saddOverflow 2 = false := by
  have htwo : (2 : CInt).toInt = 2 := rfl
  rw [BitVec.saddOverflow, toInt_ofNat_of_lt (by omega), htwo, Bool.or_eq_false_iff]
  exact ⟨decide_eq_false (by omega), decide_eq_false (by omega)⟩

/-- As long as the calls are whole ones and keep to the capacity, the queue is that of the values
written and not read. -/
theorem attempts_of_program (hN : 0 < N) (hsize : 4 * (N + 2) < 2 ^ 31) {s : State}
    (h : (program (BitVec.ofNat 32 N)).ReachableVia (Allowed N) s) :
    (attempts (BitVec.ofNat 32 N)).ReachableVia (Guarded (BitVec.ofNat 32 N))
      ⟨s.file, (stores s.trace).drop (loads s.trace).length⟩ := by
  induction h with
  | init hs =>
    refine .init ⟨not_saddOverflow (by omega), ?_⟩
    rw [hs]
    rfl
  | @step s s' call hr hallowed hstep ih =>
    have hoccupancy := (inv_of_reachableVia hN hsize hr).fifo.loads_prefix_stores.length_le
    cases call with
    | write value =>
      obtain ⟨file, hfile, rfl⟩ := Option.map_eq_some_iff.mp hstep
      have hroom : (stores s.trace).length < (loads s.trace).length + N := hallowed
      have hnext := attempts_whole (.write value) hN hsize ih
        (show List.length _ < N by rw [List.length_drop]; omega)
        (Option.map_eq_some_iff.mpr ⟨file, hfile, rfl⟩)
      rw [stores_append_store, loads_append_store, List.drop_append_of_le_length hoccupancy]
      exact hnext
    | read =>
      obtain ⟨⟨value, file⟩, hfile, rfl⟩ := Option.map_eq_some_iff.mp hstep
      have hne : (loads s.trace).length < (stores s.trace).length := hallowed
      have hnext := attempts_whole .read hN hsize ih
        (show 0 < List.length _ by rw [List.length_drop]; omega)
        (Option.map_eq_some_iff.mpr ⟨_, hfile, rfl⟩)
      rw [stores_append_load, loads_append_load, List.length_append, List.length_singleton,
        ← List.tail_drop]
      exact hnext

end Attempts

end BufferFile
