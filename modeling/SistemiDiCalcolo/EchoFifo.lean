/-
The echo program of Lab06/03.

A client sends what its user types through one FIFO to an echo process, which sends it
back through another.  Both use `readOneByOne`, which reads up to a newline, and
`writeMsg`, which sends up to the first zero of its buffer.

A step is a system call, with the local code up to the next one.
-/
import SistemiDiCalcolo.Machine
import SistemiDiCalcolo.Descriptor
import SistemiDiCalcolo.Lines

open AccessLog (Byte)
open Memory (cString strlen)
open Lines (takeLine)

namespace EchoFifo

def QUIT_COMMAND : List Byte := charBytes "QUIT"

def newline : Byte := 10

/-- `sizeof(buf)` in both programs. -/
def bufSize : ℕ := 1024

/-- The message of `sprintf`. -/
@[irreducible] def welcome : List Byte :=
  charBytes ("Hi! I'm an Echo process based on FIFOs. I will send you back through a FIFO " ++
    "whatever you send me through the other FIFO, and I will stop and exit when you send me ") ++
    QUIT_COMMAND ++ charBytes ".\n"

/-! ### `rw.c` -/

/-- One pass of the loop of `readOneByOne`: interrupted, the end of the program, or a byte
stored, which may be the separator. -/
inductive ReadPass
  | again
  | failed
  | byte (fifo : List Byte) (buf : Memory Byte) (found : Bool)

/-- `readOneByOne` reads one byte; `isOpen` tells whether somebody can still write. -/
def readOneByOne (fifo : List Byte) (isOpen : Bool) (buf : Memory Byte) (bytes_read : ℕ)
    (separator : Byte) (ret : Ret) : Option ReadPass :=
  match ret, fifo with
  | .eintr, _ => some .again
  | .moved 0, [] => if isOpen then none else some .failed
  | .moved 1, b :: fifo => some (.byte fifo (buf.store bytes_read [b]) (b = separator))
  | .moved _, _ => none

/-- One pass of the loop of `writeMsg`. -/
inductive WritePass
  | again
  | failed
  | wrote (fifo : List Byte) (bytes_sent bytes_left : ℕ)

/-- `writeMsg` writes some of the bytes that are left; `isOpen` tells whether somebody can
still read. -/
def writeMsg (capacity : ℕ) (fifo : List Byte) (isOpen : Bool) (buf : Memory Byte)
    (bytes_sent bytes_left : ℕ) (ret : Ret) : Option WritePass :=
  if isOpen then
    match ret with
    | .eintr => some .again
    | .moved n =>
      if 0 < n ∧ n ≤ bytes_left ∧ fifo.length + n ≤ capacity then
        some (.wrote (fifo ++ buf.load bytes_sent n) (bytes_sent + n) (bytes_left - n))
      else none
  else some .failed

/-! ### The two processes -/

/-- The calls of `echo.c`: in `writeMsg`, in `readOneByOne`, out of the loop, or ended with
an error. -/
inductive EchoPc
  | writing (bytes_sent bytes_left : ℕ)
  | reading (bytes_read : ℕ)
  | left
  | failed
  deriving DecidableEq, Repr

/-- The calls of `client.c`: `readOneByOne` for the welcome message, `fgets`, `writeMsg`,
`readOneByOne` for the reply, out of the loop, or ended with an error. -/
inductive ClientPc
  | welcome (bytes_read : ℕ)
  | prompt
  | writing (bytes_sent bytes_left : ℕ)
  | reply (bytes_read : ℕ)
  | left
  | failed
  deriving DecidableEq, Repr

/-- The two FIFOs, what the user types, and the processes with their buffers.  Beside them
what the client has printed and sent, and what the echo process has received. -/
structure State where
  stdin : List Byte
  clientFifo : List Byte
  echoFifo : List Byte
  client : ClientPc
  clientBuf : Memory Byte
  echo : EchoPc
  echoBuf : Memory Byte
  printed : List (List Byte)
  sent : List (List Byte)
  received : List (List Byte)

/-- Who makes a system call, with its result. -/
inductive Agent
  | client (ret : Ret)
  | echo (ret : Ret)

/-- The call is not interrupted. -/
def Agent.isMoved : Agent → Bool
  | .client ret | .echo ret => ret.isMoved

namespace State

/-- The client has its ends of the FIFOs open. -/
def clientOpen (s : State) : Bool :=
  match s.client with
  | .left | .failed => false
  | _ => true

/-- The echo process has its ends open. -/
def echoOpen (s : State) : Bool :=
  match s.echo with
  | .left | .failed => false
  | _ => true

/-- The echo process goes back to `readOneByOne`. -/
def echoReads (s : State) : State := { s with echo := .reading 0 }

/-- `writeMsg(echo_fifo, buf, strlen(buf))`, which sends nothing if the message is empty. -/
def echoSends (s : State) : State :=
  if strlen bufSize s.echoBuf = 0 then s.echoReads
  else { s with echo := .writing 0 (strlen bufSize s.echoBuf) }

/-- `readOneByOne` has returned `bytes_read`; as `DEBUG` is 1, the buffer is terminated. -/
def echoReceives (s : State) (buf : Memory Byte) (bytes_read : ℕ) : State :=
  let s := { s with
    echoBuf := buf.store bytes_read [0]
    received := s.received ++ [buf.load 0 bytes_read] }
  if bytes_read = QUIT_COMMAND.length ∧ s.echoBuf.load 0 QUIT_COMMAND.length = QUIT_COMMAND then
    { s with echo := .left }
  else s.echoSends

/-- `writeMsg` has returned to the client.  `bytes_sent` is the variable of `main`, that
`writeMsg` does not set; `bytes_sent - 1` is converted to a `size_t`. -/
def clientHasSent (s : State) : State :=
  let bytes_sent : CInt := 0
  let s := { s with sent := s.sent ++ [cString bufSize s.clientBuf] }
  if (bytes_sent - 1).signExtend 64 = BitVec.ofNat 64 QUIT_COMMAND.length ∧
      s.clientBuf.load 0 QUIT_COMMAND.length = QUIT_COMMAND then
    { s with client := .left }
  else { s with client := .reply 0 }

/-- `fgets` has returned a line. -/
def clientSends (s : State) (line : List Byte) : State :=
  let s := { s with
    stdin := s.stdin.drop line.length
    clientBuf := s.clientBuf.store 0 (line ++ [0]) }
  if strlen bufSize s.clientBuf = 0 then s.clientHasSent
  else { s with client := .writing 0 (strlen bufSize s.clientBuf) }

/-- `readOneByOne` has returned `bytes_read`, and the client prints. -/
def clientReceives (s : State) (buf : Memory Byte) (bytes_read : ℕ) : State :=
  let buf := buf.store bytes_read [0]
  { s with
    client := .prompt
    clientBuf := buf
    printed := s.printed ++ [cString bufSize buf] }

end State

/-- The next call of the echo process. -/
def echo (capacity : ℕ) (s : State) (ret : Ret) : Option State :=
  match s.echo with
  | .writing bytes_sent bytes_left =>
    (writeMsg capacity s.echoFifo s.clientOpen s.echoBuf bytes_sent bytes_left ret).map fun
      | .again => s
      | .failed => { s with echo := .failed }
      | .wrote fifo bytes_sent bytes_left =>
        if 0 < bytes_left then { s with echoFifo := fifo, echo := .writing bytes_sent bytes_left }
        else { s with echoFifo := fifo }.echoReads
  | .reading bytes_read =>
    (readOneByOne s.clientFifo s.clientOpen s.echoBuf bytes_read newline ret).map fun
      | .again => s
      | .failed => { s with echo := .failed }
      | .byte fifo buf true => { s with clientFifo := fifo }.echoReceives buf (bytes_read + 1)
      | .byte fifo buf false =>
        { s with clientFifo := fifo, echo := .reading (bytes_read + 1), echoBuf := buf }
  | .left | .failed => none

/-- The next call of the client. -/
def client (capacity : ℕ) (s : State) (ret : Ret) : Option State :=
  match s.client with
  | .prompt =>
    -- `fgets` waits for a line; at the end of the input it returns `NULL`
    match ret with
    | .eintr => none
    | .moved _ =>
      if s.stdin = [] then some { s with client := .failed }
      else some (s.clientSends (takeLine newline (bufSize - 1) s.stdin))
  | .writing bytes_sent bytes_left =>
    (writeMsg capacity s.clientFifo s.echoOpen s.clientBuf bytes_sent bytes_left ret).map fun
      | .again => s
      | .failed => { s with client := .failed }
      | .wrote fifo bytes_sent bytes_left =>
        if 0 < bytes_left then
          { s with clientFifo := fifo, client := .writing bytes_sent bytes_left }
        else { s with clientFifo := fifo }.clientHasSent
  | .welcome bytes_read =>
    (readOneByOne s.echoFifo s.echoOpen s.clientBuf bytes_read newline ret).map fun
      | .again => s
      | .failed => { s with client := .failed }
      | .byte fifo buf true => { s with echoFifo := fifo }.clientReceives buf (bytes_read + 1)
      | .byte fifo buf false =>
        { s with echoFifo := fifo, client := .welcome (bytes_read + 1), clientBuf := buf }
  | .reply bytes_read =>
    (readOneByOne s.echoFifo s.echoOpen s.clientBuf bytes_read newline ret).map fun
      | .again => s
      | .failed => { s with client := .failed }
      | .byte fifo buf true => { s with echoFifo := fifo }.clientReceives buf (bytes_read + 1)
      | .byte fifo buf false =>
        { s with echoFifo := fifo, client := .reply (bytes_read + 1), clientBuf := buf }
  | .left | .failed => none

/-- The next call of an agent. -/
def step (capacity : ℕ) (s : State) : Agent → Option State
  | .client ret => client capacity s ret
  | .echo ret => echo capacity s ret

/-- Both FIFOs are open, and `sprintf` has filled the buffer of the echo process. -/
def opened (stdin : List Byte) (clientBuf echoBuf : Memory Byte) : State where
  stdin := stdin
  clientFifo := []
  echoFifo := []
  client := .welcome 0
  clientBuf := clientBuf
  echo := .reading 0
  echoBuf := echoBuf.store 0 (welcome ++ [0])
  printed := []
  sent := []
  received := []

/-- The welcome message is about to be sent. -/
def start (stdin : List Byte) (clientBuf echoBuf : Memory Byte) : State :=
  (opened stdin clientBuf echoBuf).echoSends

/-- The two programs, with FIFOs of `capacity` bytes and what the user types. -/
def program (capacity : ℕ) (stdin : List Byte) : Machine State Agent where
  init s := ∃ clientBuf echoBuf, s = start stdin clientBuf echoBuf
  step := step capacity

end EchoFifo
