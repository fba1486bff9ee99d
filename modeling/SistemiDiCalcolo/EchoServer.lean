/-
The echo server of Lab08/01 (`server.c`).

`connection_handler` sends a welcome message and then sends back what it receives, until
that is the quit command.  Its loop of `recv` takes one byte at a time; the test of the
loop looks at the cell after the one that has been filled, that is at what the buffer held
before.

* `connection_handler` — the whole handler, one step for each call;
* `echoLoop` — its echo loop, from the buffer as `memset` and the welcome message leave it;
* `FirstEnd` — where a pass of the loop of `recv` will stop.
-/
import SistemiDiCalcolo.Machine
import SistemiDiCalcolo.Descriptor

open AccessLog (Byte)

namespace EchoServer

def SERVER_COMMAND : List Byte := charBytes "QUIT\n"

def newline : Byte := 10

/-- `sizeof(buf)`. -/
def bufSize : ℕ := 1024

/-- The message of `sprintf`. -/
@[irreducible] def welcome : List Byte :=
  charBytes ("Hi! I'm an echo server. I will send you back whatever" ++
    " you send me. I will stop if you send me ") ++ SERVER_COMMAND

/-- What `connection_handler` is about to do: `send` in the first loop, begin a pass of the
echo loop, `recv`, or `send` in the echo loop; or it has left the echo loop, or ended with
an error. -/
inductive Pc
  | welcoming (bytes_sent : ℕ)
  | pass
  | receiving (recv_bytes : ℕ)
  | sending (recv_bytes bytes_sent : ℕ)
  | left
  | failed
  deriving DecidableEq, Repr

/-- What a call gives: -1 with `EINTR` or with another error, 0 as the client has closed, a
byte, or how many bytes `send` has taken.  `begin` is the step without a call. -/
inductive Event
  | interrupted
  | error
  | closed
  | byte
  | taken (n : ℕ)
  | begin
  deriving DecidableEq, Repr

/-- The buffer and what the client has yet to be received of; beside them the bytes that
`send` has taken, and what each pass of the loop of `recv` has left in the buffer. -/
structure Handler where
  pc : Pc
  buf : Memory Byte
  input : List Byte
  sent : List Byte
  commands : List (List Byte)

namespace Handler

/-- The test of the first loop. -/
def welcomes (s : Handler) (bytes_sent : ℕ) : Handler :=
  { s with pc := if 0 < welcome.length - bytes_sent then .welcoming bytes_sent else .pass }

/-- The test of the loop of `send`. -/
def sends (s : Handler) (recv_bytes bytes_sent : ℕ) : Handler :=
  { s with
    pc := if 0 < recv_bytes - bytes_sent then .sending recv_bytes bytes_sent else .pass }

/-- The loop of `recv` is over: is it the quit command? -/
def received (s : Handler) (recv_bytes : ℕ) : Handler :=
  let s := { s with commands := s.commands ++ [s.buf.load 0 recv_bytes] }
  if recv_bytes = SERVER_COMMAND.length ∧
      s.buf.load 0 SERVER_COMMAND.length = SERVER_COMMAND then
    { s with pc := .left }
  else s.sends recv_bytes 0

/-- The test of the loop of `recv`. -/
def receives (s : Handler) (recv_bytes : ℕ) : Handler :=
  if s.buf recv_bytes ≠ newline ∧ s.buf recv_bytes ≠ 0 then
    { s with pc := .receiving recv_bytes }
  else s.received recv_bytes

end Handler

/-- The next call, with the local code up to the one after it. -/
def step (s : Handler) (ev : Event) : Option Handler :=
  match s.pc, ev with
  | .welcoming bytes_sent, .interrupted => some (s.welcomes bytes_sent)
  | .welcoming bytes_sent, .taken n =>
    if 0 < n ∧ n ≤ welcome.length - bytes_sent then
      let s := { s with sent := s.sent ++ s.buf.load bytes_sent n }
      -- the number of bytes taken is compared with the size of the buffer
      if n ≠ bufSize then some { s with pc := .failed } else some (s.welcomes (bytes_sent + n))
    else none
  | .pass, .begin => some (s.receives 0)
  | .receiving recv_bytes, .interrupted => some (s.receives recv_bytes)
  | .receiving recv_bytes, .byte =>
    match s.input with
    | [] => none
    | c :: input =>
      some ({ s with input := input, buf := s.buf.store recv_bytes [c] }.receives (recv_bytes + 1))
  | .receiving _, .closed => if s.input = [] then some { s with pc := .failed } else none
  | .sending recv_bytes bytes_sent, .interrupted => some (s.sends recv_bytes bytes_sent)
  | .sending recv_bytes bytes_sent, .taken n =>
    if 0 < n ∧ n ≤ recv_bytes - bytes_sent then
      let s := { s with sent := s.sent ++ s.buf.load bytes_sent n }
      if n ≠ recv_bytes then some { s with pc := .failed }
      else some (s.sends recv_bytes (bytes_sent + n))
    else none
  | .welcoming _, .error | .receiving _, .error | .sending _ _, .error =>
    some { s with pc := .failed }
  | _, _ => none

/-- The buffer after `memset` and `sprintf`, whatever it held before. -/
def welcomed (buf : Memory Byte) : Memory Byte :=
  (buf.store 0 (List.replicate bufSize 0)).store 0 (welcome ++ [0])

/-- The welcome message is in the buffer. -/
def start (buf : Memory Byte) (pc : Pc) (input : List Byte) : Handler where
  pc := pc
  buf := welcomed buf
  input := input
  sent := []
  commands := []

/-- `connection_handler`, for a client that sends the bytes `input`. -/
def connection_handler (input : List Byte) : Machine Handler Event where
  init s := ∃ buf, s = start buf (.welcoming 0) input
  step := step

/-- The echo loop of `connection_handler`. -/
def echoLoop (input : List Byte) : Machine Handler Event where
  init s := ∃ buf, s = start buf .pass input
  step := step

/-! ### Where a pass stops -/

/-- The bytes at which the loop of `recv` stops. -/
def IsEnd (b : Byte) : Prop := b = newline ∨ b = 0

instance : DecidablePred IsEnd := fun b => inferInstanceAs (Decidable (b = newline ∨ b = 0))

/-- `t` is the first end in the buffer. -/
structure FirstEnd (buf : Memory Byte) (t : ℕ) : Prop where
  isEnd : IsEnd (buf t)
  not_isEnd : ∀ i, i < t → ¬ IsEnd (buf i)

theorem receives_of_isEnd {s : Handler} {r : ℕ} (h : IsEnd (s.buf r)) :
    s.receives r = s.received r := by
  rw [Handler.receives, if_neg]
  rintro ⟨hnewline, hzero⟩
  exact h.elim hnewline hzero

theorem receives_of_not_isEnd {s : Handler} {r : ℕ} (h : ¬ IsEnd (s.buf r)) :
    s.receives r = { s with pc := .receiving r } := by
  rw [Handler.receives, if_pos]
  exact ⟨fun hnewline => h (.inl hnewline), fun hzero => h (.inr hzero)⟩

/-- The pass has received the quit command. -/
theorem received_eq_left {s : Handler} {r : ℕ} (h : s.buf.load 0 r = SERVER_COMMAND) :
    s.received r = { s with commands := s.commands ++ [s.buf.load 0 r], pc := .left } := by
  have hr : r = SERVER_COMMAND.length := by rw [← h, Memory.length_load]
  rw [Handler.received, if_pos]
  exact ⟨hr, by rw [← hr]; exact h⟩

/-- The pass has received something else. -/
theorem received_eq_sends {s : Handler} {r : ℕ} (h : s.buf.load 0 r ≠ SERVER_COMMAND) :
    s.received r = { s with commands := s.commands ++ [s.buf.load 0 r] }.sends r 0 := by
  rw [Handler.received, if_neg]
  rintro ⟨rfl, hload⟩
  exact h hload

/-- The welcome message has 99 bytes, and the last of them is its only end. -/
theorem welcome_spec : welcome.length = 99 ∧ welcome.getLast? = some newline ∧
    welcome.dropLast.all (fun b => decide (¬ IsEnd b)) = true := by
  rw [welcome]
  decide +kernel

theorem length_welcome : welcome.length = 99 := welcome_spec.1

theorem exists_body_welcome :
    ∃ body, welcome = body ++ [newline] ∧ ∀ b ∈ body, ¬ IsEnd b := by
  obtain ⟨-, hlast, hbody⟩ := welcome_spec
  refine ⟨welcome.dropLast, (List.dropLast_append_getLast? newline hlast).symm, fun b hb => ?_⟩
  exact of_decide_eq_true (List.all_eq_true.mp hbody b hb)

/-- The first pass stops at the newline of the welcome message. -/
theorem firstEnd_welcomed (buf : Memory Byte) :
    FirstEnd (welcomed buf) (welcome.length - 1) := by
  obtain ⟨body, hbody, hends⟩ := exists_body_welcome
  have hstore : ∀ i (hi : i < (welcome ++ [0]).length), welcomed buf i = (welcome ++ [0])[i] := by
    intro i hi
    have hadd := Memory.store_add (m := buf.store 0 (List.replicate bufSize 0)) (a := 0) hi
    rwa [Nat.zero_add] at hadd
  rw [hbody, List.length_append, List.length_singleton, Nat.add_sub_cancel]
  constructor
  · left
    rw [hstore _ (by rw [hbody]; simp)]
    simp [hbody]
  · intro i hi
    rw [hstore i (by rw [hbody]; simp; omega)]
    simp only [hbody, List.append_assoc]
    rw [List.getElem_append_left hi]
    exact hends _ (List.getElem_mem hi)

end EchoServer
