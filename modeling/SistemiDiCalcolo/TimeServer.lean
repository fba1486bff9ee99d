/-
The TIME server of Lab07/03.

`connection_handler` receives a command and sends a reply.  Its two loops give `recv` and
`send` the beginning of the buffer at every pass, and test `ret == 1` for an error; the
first one stops at a chunk as long as the command.

A step is a `recv` or a `send`, with the local code up to the next one.
-/
import SistemiDiCalcolo.Machine
import SistemiDiCalcolo.Descriptor

open AccessLog (Byte)
open Memory (cString strlen)

namespace TimeServer

/-- The command, and the text that `ctime` returns. -/
structure Params where
  SERVER_COMMAND : List Byte
  ctime : List Byte
  command_pos : 1 ≤ SERVER_COMMAND.length
  command_le : SERVER_COMMAND.length ≤ 255
  zero_notMem_command : 0 ∉ SERVER_COMMAND
  length_ctime : ctime.length = 25
  zero_notMem_ctime : 0 ∉ ctime

/-- The command of `common.h`, at some time. -/
def time : Params where
  SERVER_COMMAND := charBytes "TIME"
  ctime := charBytes "Thu Nov 24 18:22:48 1986\n"
  command_pos := by decide
  command_le := by decide
  zero_notMem_command := by decide
  length_ctime := by decide
  zero_notMem_ctime := by decide

/-- `strlen(allowed_command)`. -/
def Params.allowed_command_len (prm : Params) : SizeT :=
  BitVec.ofNat 64 prm.SERVER_COMMAND.length

def INVALID_REQUEST : List Byte := charBytes "INVALID REQUEST"

/-- `sizeof(recv_buf)`, and `sizeof(send_buf)`. -/
def bufSize : ℕ := 256

def recv_buf_len : SizeT := BitVec.ofNat 64 bufSize

def EINTR : CInt := 4

/-- What `recv` gives: a chunk, empty when the peer has closed, or -1 and an `errno`. -/
inductive Received
  | chunk (data : List Byte)
  | error (errno : CInt)

def Received.ret : Received → CInt
  | .chunk data => BitVec.ofNat 32 data.length
  | .error _ => -1

/-- What `send` gives: how many bytes it has taken, or -1 and an `errno`. -/
inductive Sent
  | taken (n : ℕ)
  | error (errno : CInt)

def Sent.ret : Sent → CInt
  | .taken n => BitVec.ofNat 32 n
  | .error _ => -1

inductive Event
  | recv (r : Received)
  | send (r : Sent)

/-- In the loop of `recv`, in that of `send`, returned, or ended with an error. -/
inductive Pc
  | receiving
  | sending
  | returned
  | failed
  deriving DecidableEq, Repr

/-- The variables of `connection_handler`, and `errno`; beside them the bytes that the
socket has taken. -/
structure Handler where
  pc : Pc
  errno : CInt
  recvBuf : Memory Byte
  recvBytes : CInt
  sendBuf : Memory Byte
  serverMessageLen : SizeT
  sentBytes : CInt
  taken : List Byte

namespace Handler

/-- How many bytes `recv` is asked for. -/
def recvLen (s : Handler) : SizeT := recv_buf_len - toSize s.recvBytes

/-- How many bytes `send` is given. -/
def sendLen (s : Handler) : SizeT := s.serverMessageLen - toSize s.sentBytes

/-- The test of the loop of `send`. -/
def sends (s : Handler) : Handler :=
  { s with pc := if 0 < s.sendLen then .sending else .returned }

/-- The message received is the command. -/
def isCommand (prm : Params) (s : Handler) : Bool :=
  toSize s.recvBytes = prm.allowed_command_len ∧
    s.recvBuf.load 0 prm.SERVER_COMMAND.length = prm.SERVER_COMMAND

/-- The loop of `recv` is over: the reply goes into `send_buf`. -/
def replies (prm : Params) (s : Handler) : Handler :=
  let text := if s.isCommand prm then prm.ctime else INVALID_REQUEST
  let sendBuf := s.sendBuf.store 0 (text ++ [0])
  sends { s with
    sendBuf := sendBuf
    serverMessageLen := BitVec.ofNat 64 (strlen bufSize sendBuf)
    sentBytes := 0 }

/-- The test of the loop of `recv`. -/
def receives (prm : Params) (s : Handler) : Handler :=
  if 0 < s.recvLen then { s with pc := .receiving } else s.replies prm

/-- What `recv` leaves in the buffer or in `errno`. -/
def received (s : Handler) : Received → Handler
  | .chunk data => { s with recvBuf := s.recvBuf.store 0 data }
  | .error errno => { s with errno := errno }

/-- The body of the loop of `recv`. -/
def recv (prm : Params) (s : Handler) (r : Received) : Handler :=
  let s := s.received r
  if r.ret = 0 then { s with pc := .failed }
  else if r.ret = 1 then
    if s.errno = EINTR then s.receives prm else { s with pc := .failed }
  else
    let s := { s with recvBytes := s.recvBytes + r.ret }
    if toSize r.ret = prm.allowed_command_len then s.replies prm else s.receives prm

/-- What `send` takes from the buffer, or leaves in `errno`. -/
def sent (s : Handler) : Sent → Handler
  | .taken n => { s with taken := s.taken ++ s.sendBuf.load 0 n }
  | .error errno => { s with errno := errno }

/-- The body of the loop of `send`. -/
def send (s : Handler) (r : Sent) : Handler :=
  let s := s.sent r
  if r.ret = 1 then
    if s.errno = EINTR then s.sends else { s with pc := .failed }
  else sends { s with sentBytes := s.sentBytes + r.ret }

end Handler

/-- The next call. -/
def step (prm : Params) (s : Handler) (ev : Event) : Option Handler :=
  match s.pc, ev with
  | .receiving, .recv (.chunk data) =>
    if data.length ≤ s.recvLen.toNat then some (s.recv prm (.chunk data)) else none
  | .receiving, .recv (.error errno) => some (s.recv prm (.error errno))
  | .sending, .send (.taken n) =>
    if 0 < n ∧ n ≤ s.sendLen.toNat then some (s.send (.taken n)) else none
  | .sending, .send (.error errno) => some (s.send (.error errno))
  | _, _ => none

/-- Nothing has been received, whatever the buffers and `errno` hold. -/
def start (errno : CInt) (recvBuf sendBuf : Memory Byte) : Handler where
  pc := .receiving
  errno := errno
  recvBuf := recvBuf
  recvBytes := 0
  sendBuf := sendBuf
  serverMessageLen := 0
  sentBytes := 0
  taken := []

/-- `connection_handler`, on a socket that has been accepted. -/
def connection_handler (prm : Params) : Machine Handler Event where
  init s := ∃ errno recvBuf sendBuf, s = start errno recvBuf sendBuf
  step := step prm

end TimeServer
