/-
The client of Lab08/01 (`client.c`).

For every line that its user types the client sends the line, and unless that was the quit
command receives a line, byte by byte up to a newline or a zero, in the buffer that holds the
message, and shows the buffer.

* `client` — the client, one step for each call;
* `replyPass` — a pass of its loop for the reply, from any state;
* `replyLine` — the line that the server has sent.
-/
import SistemiDiCalcolo.EchoServer
import SistemiDiCalcolo.Lines

open AccessLog (Byte)
open Memory (cString strlen)
open Lines (takeLine)
open EchoServer (SERVER_COMMAND newline bufSize IsEnd)

namespace LineClient

/-- The calls of `main`: `recv` for the welcome message, `fgets`, `send`, `recv` for the reply;
or it has left the main loop, or ended with an error, or gone out of the bounds of `buf`. -/
inductive Pc
  | welcome (recv_bytes : ℕ)
  | prompt
  | sending (msg_len bytes_sent : ℕ)
  | reply (recv_bytes : ℕ)
  | left
  | failed
  | undefined
  deriving DecidableEq, Repr

/-- What a call gives: -1 with `EINTR` or with another error, 0 as the server has closed, a
byte, or how many bytes `send` has taken.  `typed` is the return of `fgets`. -/
inductive Event
  | interrupted
  | error
  | closed
  | byte
  | typed
  | taken (n : ℕ)
  deriving DecidableEq, Repr

/-- The buffer, what the server has sent that is yet to be received, and what the user has yet
to type; beside them the bytes that `send` has taken, and what has been shown for each reply. -/
structure State where
  pc : Pc
  buf : Memory Byte
  input : List Byte
  stdin : List Byte
  sent : List Byte
  shown : List (List Byte)

namespace State

/-- The loop of `send` is over: was it the quit command? -/
def hasSent (s : State) (bytes_sent : ℕ) : State :=
  if bytes_sent = SERVER_COMMAND.length ∧
      s.buf.load 0 SERVER_COMMAND.length = SERVER_COMMAND then
    { s with pc := .left }
  else { s with pc := .reply 0 }

/-- The test of the loop of `send`. -/
def sends (s : State) (msg_len bytes_sent : ℕ) : State :=
  if 0 < msg_len - bytes_sent then { s with pc := .sending msg_len bytes_sent }
  else s.hasSent bytes_sent

/-- `fgets` has returned a line. -/
def types (s : State) (line : List Byte) : State :=
  let s := { s with
    buf := s.buf.store 0 (line ++ [0])
    stdin := s.stdin.drop line.length }
  s.sends (strlen bufSize s.buf) 0

/-- `recv` has stored a byte; the loop stops at an end, which it does not count. -/
def stored (s : State) (recv_bytes : ℕ) (more : ℕ → Pc) (after : State → State) : State :=
  if IsEnd (s.buf recv_bytes) then after s else { s with pc := more (recv_bytes + 1) }

/-- `recv` is to store a byte; out of the buffer it is not defined what happens. -/
def recv (s : State) (recv_bytes : ℕ) (more : ℕ → Pc) (after : State → State) : Option State :=
  match s.input with
  | [] => none
  | c :: input =>
    if recv_bytes < bufSize then
      some (stored { s with input := input, buf := s.buf.store recv_bytes [c] } recv_bytes more
        after)
    else some { s with pc := .undefined }

/-- `printf` of the buffer.  Nothing terminates what has been received, and without a zero in
the buffer `%s` goes on after it. -/
def shows (s : State) : State :=
  if strlen bufSize s.buf < bufSize then
    { s with shown := s.shown ++ [cString bufSize s.buf], pc := .prompt }
  else { s with pc := .undefined }

end State

/-- The next call, with the local code up to the one after it. -/
def step (s : State) (ev : Event) : Option State :=
  match s.pc, ev with
  | .welcome _, .interrupted | .reply _, .interrupted => some s
  | .sending msg_len bytes_sent, .interrupted => some (s.sends msg_len bytes_sent)
  | .welcome _, .error | .sending _ _, .error | .reply _, .error =>
    some { s with pc := .failed }
  | .welcome _, .closed | .reply _, .closed =>
    if s.input = [] then some { s with pc := .failed } else none
  | .welcome recv_bytes, .byte =>
    s.recv recv_bytes .welcome fun s => { s with pc := .prompt }
  | .prompt, .typed =>
    -- at the end of the input `fgets` returns `NULL`
    if s.stdin = [] then some { s with pc := .failed }
    else some (s.types (takeLine newline (bufSize - 1) s.stdin))
  | .sending msg_len bytes_sent, .taken n =>
    if 0 < n ∧ n ≤ msg_len - bytes_sent then
      let s := { s with sent := s.sent ++ s.buf.load bytes_sent n }
      if n ≠ msg_len then some { s with pc := .failed }
      else some (s.sends msg_len (bytes_sent + n))
    else none
  | .reply recv_bytes, .byte => s.recv recv_bytes .reply State.shows
  | _, _ => none

/-- The client is connected, to a server that will send `input`, and its user will type
`stdin`. -/
def start (buf : Memory Byte) (input stdin : List Byte) : State where
  pc := .welcome 0
  buf := buf.store 0 (List.replicate bufSize 0)
  input := input
  stdin := stdin
  sent := []
  shown := []

/-- The client. -/
def client (input stdin : List Byte) : Machine State Event where
  init s := ∃ buf, s = start buf input stdin
  step := step

/-- A pass of the loop for the reply. -/
def replyPass (s₀ : State) : Machine State Event where
  init s := s = s₀
  step s ev :=
    match s.pc with
    | .reply _ => step s ev
    | _ => none

/-! ### The line to be received -/

/-- The loop goes on after this byte. -/
def isBody (b : Byte) : Bool := ¬ IsEnd b

/-- The bytes before the first end. -/
def replyBody (input : List Byte) : List Byte := input.takeWhile isBody

/-- The first end. -/
def replyEnd (input : List Byte) : Option Byte := (input.dropWhile isBody).head?

/-- The text of the line: a newline is part of it, a zero is not. -/
def replyLine (input : List Byte) : List Byte :=
  replyBody input ++ (replyEnd input).toList.filter (· ≠ 0)

end LineClient
