/-
The pipe of Lab06/02.

`numWriters` processes send messages of `dataLen` bytes through a pipe to
`numReaders` processes.  A message is larger than the pipe, so `write_to_pipe`
and `read_from_pipe` move it by many partial transfers; a mutex on each side
keeps the messages apart.

* `program` — the program, the write end of the pipe being open throughout (the
  parent never closes it while it waits for its children);
* `closedPipe` — the readers alone, on a pipe whose last write end is closed after
  a given stream of bytes.
-/
import SistemiDiCalcolo.Machine
import SistemiDiCalcolo.Sections
import SistemiDiCalcolo.Descriptor

open Function (update)
open AccessLog (Byte intBytes)

namespace Pipe

/-- The `#define`s: the processes, the messages of each, `sizeof(data)`; and the bytes
the kernel keeps in the pipe. -/
structure Params where
  numWriters : ℕ
  numReaders : ℕ
  perWriter : ℕ
  perReader : ℕ
  dataLen : ℕ
  capacity : ℕ

/-- The program has: two writers with six messages each, three readers with four,
64 * 4096 elements a message, and 65536 bytes in the pipe. -/
def sizes : Params where
  numWriters := 2
  numReaders := 3
  perWriter := 6
  perReader := 4
  dataLen := 64 * 4096 * 4
  capacity := 65536

/-- `MSG_ELEMS`. -/
def Params.msgElems (prm : Params) : ℕ := prm.dataLen / 4

/-- `wi`, `bytes_remaining` and `total` of `write_to_pipe`; `ri`, `bytes_remaining` and
`tot` of `read_from_pipe`. -/
structure Locals where
  index : ℤ
  bytesRemaining : ℤ
  total : ℤ
  deriving DecidableEq, Repr

namespace Locals

/-- The declarations; `data_len` is converted to an `int`. -/
def init (dataLen : ℕ) : Locals := ⟨0, (BitVec.ofNat 32 dataLen).toInt, 0⟩

/-- The three updates at the end of the loop body. -/
def moved (v : Locals) (ret : ℕ) : Locals := ⟨v.index + ret, v.bytesRemaining - ret, v.total + ret⟩

/-- `(int *) data + wi`, in bytes from `data`. -/
def address (v : Locals) : ℕ := (4 * v.index).toNat

end Locals

/-- `create_msg`: `data[i] = value` for all `i` below `elem_count`. -/
def create_msg (data : Memory Byte) (value : CInt) : ℕ → Memory Byte
  | 0 => data
  | i + 1 => (create_msg data value i).store (4 * i) (intBytes value)

/-- `is_msg_ok`: all elements are equal to the first. -/
def is_msg_ok (data : Memory Byte) (elem_count : ℕ) : Bool :=
  (List.range elem_count).all fun i => intAt data 0 = intAt data (4 * i)

/-- Program points of `writer`; `writing` is the loop of `write_to_pipe`, and
`postMutex` carries what it has returned. -/
inductive WriterPc
  | loop
  | waitMutex
  | writing (v : Locals)
  | postMutex (ret : ℤ)
  | done

/-- Program points of `reader`; the value that `read_from_pipe` has returned is carried
along, though `reader` does not look at it. -/
inductive ReaderPc
  | loop
  | waitMutex
  | reading (v : Locals)
  | postMutex (ret : ℤ)
  | report (ret : ℤ)
  | done

structure Writer where
  pc : WriterPc
  i : ℕ
  data : Memory Byte

/-- A reader; beside its variables, for each byte of `data` the last iteration that has
stored it, counted from 1, and the bytes moved by each `read` of the last section. -/
structure Reader where
  pc : ReaderPc
  i : ℕ
  data : Memory Byte
  stamp : Memory ℕ
  reads : List ℕ

/-- What an iteration of `reader` reports: its number, the value printed and whether
`is_msg_ok`; beside them what `read_from_pipe` returned, the stamps of `data` and the
transfers of the section. -/
structure Report where
  i : ℕ
  value : CInt
  ok : Bool
  ret : ℤ
  stamp : Memory ℕ
  reads : List ℕ

/-- The pipe, the mutexes and the processes.  Beside them the bytes handed over by
`write` and taken by `read`, one block a section: those of the sections that are
over, and that of the section under way. -/
structure State (prm : Params) where
  pipe : List Byte
  writeMutex : ℕ
  readMutex : ℕ
  writer : Fin prm.numWriters → Writer
  reader : Fin prm.numReaders → Reader
  written : List (List Byte)
  writing : List Byte
  taken : List (List Byte)
  taking : List Byte
  reports : List Report

/-- Who takes a step, with the result of the call if the step is one. -/
inductive Agent (prm : Params)
  | writer (p : Fin prm.numWriters) (ret : Ret)
  | reader (c : Fin prm.numReaders) (ret : Ret)

/-- The call of the step, if it is one, is not interrupted. -/
def Agent.isMoved {prm : Params} : Agent prm → Bool
  | .writer _ ret | .reader _ ret => ret.isMoved

section Program

variable {prm : Params}

/-- The next step of `writer`. -/
def writer (s : State prm) (p : Fin prm.numWriters) (ret : Ret) : Option (State prm) :=
  let t := s.writer p
  match t.pc with
  | .loop =>
    if t.i < prm.perWriter then
      some { s with writer := update s.writer p { t with
        pc := .waitMutex
        data := create_msg t.data (BitVec.ofNat 32 t.i) prm.msgElems } }
    else some { s with writer := update s.writer p { t with pc := .done } }
  | .waitMutex =>
    if 0 < s.writeMutex then
      some { s with
        writeMutex := s.writeMutex - 1
        writer := update s.writer p { t with pc := .writing (.init prm.dataLen) } }
    else none
  | .writing v =>
    if 0 < v.bytesRemaining then
      match ret with
      | .eintr => some s
      | .moved n =>
        if 0 < n ∧ n ≤ v.bytesRemaining ∧ s.pipe.length + n ≤ prm.capacity then
          some { s with
            pipe := s.pipe ++ t.data.load v.address n
            writing := s.writing ++ t.data.load v.address n
            writer := update s.writer p { t with pc := .writing (v.moved n) } }
        else none
    else
      some { s with
        written := s.written ++ [s.writing]
        writing := []
        writer := update s.writer p { t with pc := .postMutex v.total } }
  | .postMutex _ =>
    some { s with
      writeMutex := s.writeMutex + 1
      writer := update s.writer p { t with pc := .loop, i := t.i + 1 } }
  | .done => none

/-- `read_from_pipe` returns to `reader`. -/
def readReturns (s : State prm) (c : Fin prm.numReaders) (v : Locals) : State prm :=
  { s with
    taken := s.taken ++ [s.taking]
    taking := []
    reader := update s.reader c { s.reader c with pc := .postMutex v.total } }

/-- The next step of `reader`; `eof` says that no write end is open, so that `read` on
an empty pipe returns 0. -/
def reader (eof : Bool) (s : State prm) (c : Fin prm.numReaders) (ret : Ret) :
    Option (State prm) :=
  let t := s.reader c
  match t.pc with
  | .loop =>
    some { s with reader := update s.reader c { t with
      pc := if t.i < prm.perReader then .waitMutex else .done } }
  | .waitMutex =>
    if 0 < s.readMutex then
      some { s with
        readMutex := s.readMutex - 1
        reader := update s.reader c { t with pc := .reading (.init prm.dataLen), reads := [] } }
    else none
  | .reading v =>
    if 0 < v.bytesRemaining then
      match ret with
      | .eintr => some s
      | .moved 0 => if eof = true ∧ s.pipe = [] then some (readReturns s c v) else none
      | .moved (n + 1) =>
        if (n + 1 : ℕ) ≤ v.bytesRemaining ∧ n + 1 ≤ s.pipe.length then
          some { s with
            pipe := s.pipe.drop (n + 1)
            taking := s.taking ++ s.pipe.take (n + 1)
            reader := update s.reader c { t with
              pc := .reading (v.moved (n + 1))
              data := t.data.store v.address (s.pipe.take (n + 1))
              stamp := t.stamp.store v.address (List.replicate (n + 1) (t.i + 1))
              reads := t.reads ++ [n + 1] } }
        else none
    else some (readReturns s c v)
  | .postMutex total =>
    some { s with
      readMutex := s.readMutex + 1
      reader := update s.reader c { t with pc := .report total } }
  | .report total =>
    some { s with
      reports := s.reports ++
        [⟨t.i, intAt t.data 0, is_msg_ok t.data prm.msgElems, total, t.stamp, t.reads⟩]
      reader := update s.reader c { t with pc := .loop, i := t.i + 1 } }
  | .done => none

/-- The next step of an agent. -/
def step (eof : Bool) (s : State prm) : Agent prm → Option (State prm)
  | .writer p ret => writer s p ret
  | .reader c ret => reader eof s c ret

/-- The children as `fork` leaves them, with whatever their arrays contain. -/
def start (stream : List Byte) (wdata : Fin prm.numWriters → Memory Byte)
    (rdata : Fin prm.numReaders → Memory Byte) : State prm where
  pipe := stream
  writeMutex := 1
  readMutex := 1
  writer p := ⟨.loop, 0, wdata p⟩
  reader c := ⟨.loop, 0, rdata c, fun _ => 0, []⟩
  written := []
  writing := []
  taken := []
  taking := []
  reports := []

/-- The program. -/
def program (prm : Params) : Machine (State prm) (Agent prm) where
  init s := ∃ wdata rdata, s = start [] wdata rdata
  step := step false

/-- The readers of a pipe whose last write end is closed after `stream`. -/
def closedPipe (prm : Params) (stream : List Byte) :
    Machine (State { prm with numWriters := 0 }) (Agent { prm with numWriters := 0 }) where
  init s := ∃ wdata rdata, s = start stream wdata rdata
  step := step true

end Program

end Pipe
