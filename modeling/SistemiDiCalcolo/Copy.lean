/-
The copy program of Lab06/01.

`performCopyBetweenDescriptors` fills a buffer by as many `read`s as it takes and
empties it by as many `write`s; `main` opens the two files around it.

* `copyStep`, `performCopyBetweenDescriptors` — the loops, for one source;
* `step`, `program` — `main`, with what the destination path holds before.
-/
import SistemiDiCalcolo.Machine
import SistemiDiCalcolo.Descriptor

open AccessLog (Byte)

namespace FileCopy

/-- What a system call does: it returns, interrupted or not, or fails otherwise. -/
inductive Event
  | call (ret : Ret)
  | error
  deriving DecidableEq, Repr

/-- The call moves bytes or, for the calls that move none, succeeds. -/
def Event.isMoved : Event → Bool
  | .call ret => ret.isMoved
  | .error => false

/-- Program points of `performCopyBetweenDescriptors`: the outer loop, the loop of `read`
and the test after it, the loop of `write`. -/
inductive CopyPc
  | outer
  | reading (read_bytes bytes_left : ℕ)
  | test (read_bytes : ℕ)
  | writing (written_bytes bytes_left : ℕ)
  | returned
  | failed
  deriving DecidableEq, Repr

/-- The buffer, the offset of the source descriptor, the file at the destination path,
the offset of its descriptor (`none` for -1); beside them the bytes that the `write`s
have accepted. -/
structure Copy where
  pc : CopyPc
  buf : Memory Byte
  offset : ℕ
  dest : Option (List Byte)
  destFd : Option ℕ
  accepted : List Byte

/-- A file after a `write` at an offset within it. -/
def writeAt (file : List Byte) (offset : ℕ) (data : List Byte) : List Byte :=
  file.take offset ++ data ++ file.drop (offset + data.length)

/-- The next step of `performCopyBetweenDescriptors`. -/
def copyStep (src : List Byte) (block_size : ℕ) (s : Copy) (ev : Event) : Option Copy :=
  match s.pc with
  | .outer => some { s with pc := .reading 0 block_size }
  | .reading read_bytes bytes_left =>
    if 0 < bytes_left then
      match ev with
      | .call .eintr => some s
      | .call (.moved 0) =>
        if s.offset = src.length then some { s with pc := .test read_bytes } else none
      | .call (.moved (n + 1)) =>
        if n + 1 ≤ bytes_left ∧ s.offset + (n + 1) ≤ src.length then
          some { s with
            pc := .reading (read_bytes + (n + 1)) (bytes_left - (n + 1))
            buf := s.buf.store read_bytes ((src.drop s.offset).take (n + 1))
            offset := s.offset + (n + 1) }
        else none
      | .error => some { s with pc := .failed }
    else some { s with pc := .test read_bytes }
  | .test read_bytes =>
    some { s with pc := if read_bytes = 0 then .returned else .writing 0 read_bytes }
  | .writing written_bytes bytes_left =>
    if 0 < bytes_left then
      match s.destFd, ev with
      | some _, .call .eintr => some s
      | some offset, .call (.moved n) =>
        if 0 < n ∧ n ≤ bytes_left then
          some { s with
            pc := .writing (written_bytes + n) (bytes_left - n)
            dest := s.dest.map (writeAt · offset (s.buf.load written_bytes n))
            destFd := some (offset + n)
            accepted := s.accepted ++ s.buf.load written_bytes n }
        else none
      -- `EBADF` when there is no descriptor
      | some _, .error | none, _ => some { s with pc := .failed }
    else some { s with pc := .outer }
  | .returned | .failed => none

/-- The function is called with `old` in the destination file, both descriptors at 0. -/
def startCopy (buf : Memory Byte) (old : List Byte) : Copy where
  pc := .outer
  buf := buf
  offset := 0
  dest := some old
  destFd := some 0
  accepted := []

/-- `performCopyBetweenDescriptors`. -/
def performCopyBetweenDescriptors (src : List Byte) (block_size : ℕ) : Machine Copy Event where
  init s := ∃ buf old, s = startCopy buf old
  step := copyStep src block_size

/-! ### `main` -/

/-- `argc`, and the value of `atoi(argv[3])`. -/
structure Args where
  argc : ℕ
  atoi : CInt

/-- `block_size`, 128 by default. -/
def Args.block_size (args : Args) : ℤ := if args.argc = 4 then args.atoi.toInt else 128

/-- Program points of `main`. -/
inductive Pc
  | args
  | openSource
  | openDest
  | reopenDest
  | copying
  | closeSource
  | closeDest
  | exited (success : Bool)
  deriving DecidableEq, Repr

structure State where
  pc : Pc
  copy : Copy

/-- `main` goes on to the copy, with `dest_fd` as given. -/
def State.copies (s : State) (dest : Option (List Byte)) (destFd : Option ℕ) : State :=
  { pc := .copying, copy := { s.copy with dest := dest, destFd := destFd } }

/-- The next step of `main`.  The second `open` is not checked; it does not truncate. -/
def step (args : Args) (src : List Byte) (s : State) (ev : Event) : Option State :=
  match s.pc with
  | .args =>
    if args.argc < 3 ∨ 4 < args.argc ∨ args.block_size ≤ 0 then
      some { s with pc := .exited false }
    else some { s with pc := .openSource }
  | .openSource =>
    match ev with
    | .call _ => some { s with pc := .openDest }
    | .error => some { s with pc := .exited false }
  | .openDest =>
    match ev, s.copy.dest with
    | .call _, none => some (s.copies (some []) (some 0))
    | .call _, some _ => some { s with pc := .reopenDest }
    | .error, _ => some { s with pc := .exited false }
  | .reopenDest =>
    match ev with
    | .call _ => some (s.copies s.copy.dest (some 0))
    | .error => some (s.copies s.copy.dest none)
  | .copying =>
    match s.copy.pc with
    | .returned => some { s with pc := .closeSource }
    | .failed => some { s with pc := .exited false }
    | _ => (copyStep src args.block_size.toNat s.copy ev).map ({ s with copy := · })
  | .closeSource =>
    match ev with
    | .call _ => some { s with pc := .closeDest }
    | .error => some { s with pc := .exited false }
  | .closeDest =>
    match s.copy.destFd, ev with
    | some _, .call _ => some { s with pc := .exited true }
    | some _, .error | none, _ => some { s with pc := .exited false }
  | .exited _ => none

/-- `main` starts with `old` at the destination path. -/
def start (buf : Memory Byte) (old : Option (List Byte)) : State where
  pc := .args
  copy := { startCopy buf [] with dest := old, destFd := none }

/-- The program. -/
def program (args : Args) (src : List Byte) (old : Option (List Byte)) :
    Machine State Event where
  init s := ∃ buf, s = start buf old
  step := step args src

end FileCopy
