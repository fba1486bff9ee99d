/-
The loops of `send` of Lab08/01.

The server sends its welcome message and what it echoes, and the client what has been typed,
with a loop that counts what has been taken and goes on; but each result is compared with a
length, the first one even with that of the buffer.

* `handler_welcomes`, `handler_echoes`, `client_sends` — they are loops with a check;
* `deliveries_iff` — the first delivers no message, and the others a message that is taken as a
  whole.
-/
import SistemiDiCalcolo.CheckedSend
import SistemiDiCalcolo.LineClient

open AccessLog (Byte)
open CheckedSend (Delivers Whole)

/-! ### The server -/

namespace EchoServer

/-- A result of `send`. -/
def sendEvent : Ret → Event
  | .eintr => .interrupted
  | .moved n => .taken n

/-- The loop that sends the welcome message. -/
def welcomeSends (s₀ : Handler) : Machine Handler Ret where
  init s := s = s₀
  step s ret :=
    match s.pc with
    | .welcoming _ => step s (sendEvent ret)
    | _ => none

/-- The loop that sends the echo. -/
def echoSends (s₀ : Handler) : Machine Handler Ret where
  init s := s = s₀
  step s ret :=
    match s.pc with
    | .sending _ _ => step s (sendEvent ret)
    | _ => none

/-- The handler gets after the loop, and `message` has been taken. -/
def Passes (M : Machine Handler Ret) (s : Handler) (message : List Byte) (rets : List Ret) :
    Prop :=
  M.run s rets = some { s with pc := .pass, sent := s.sent ++ message }

/-- The handler where the loop with a check is. -/
def Handler.at (s : Handler) (sending : ℕ → Pc) (u : CheckedSend.State Byte) : Handler :=
  { s with
    pc := match u.pc with
      | .sending bytes_sent => sending bytes_sent
      | .ended => .pass
      | .failed => .failed
    sent := s.sent ++ u.accepted }

variable {s : Handler} {recv_bytes : ℕ} {rets : List Ret}

theorem handler_welcomes_step (u : CheckedSend.State Byte) (ret : Ret) :
    (welcomeSends s).step (s.at .welcoming u) ret
      = (CheckedSend.step bufSize s.buf welcome.length u ret).map (s.at .welcoming) := by
  cases hpc : u.pc with
  | ended | failed => simp only [welcomeSends, Handler.at, CheckedSend.step, hpc, Option.map_none]
  | sending k =>
    cases ret with
    | eintr =>
      simp only [welcomeSends, Handler.at, CheckedSend.step, hpc, step, sendEvent,
        Handler.welcomes, CheckedSend.test, Option.map_some]
      split_ifs <;> rfl
    | moved n =>
      simp only [welcomeSends, Handler.at, CheckedSend.step, hpc, step, sendEvent,
        Handler.welcomes, CheckedSend.test]
      split_ifs <;> simp only [Option.map_some, Option.map_none, Handler.at, List.append_assoc]

theorem handler_echoes_step (u : CheckedSend.State Byte) (ret : Ret) :
    (echoSends s).step (s.at (.sending recv_bytes) u) ret
      = (CheckedSend.step recv_bytes s.buf recv_bytes u ret).map (s.at (.sending recv_bytes)) := by
  cases hpc : u.pc with
  | ended | failed => simp only [echoSends, Handler.at, CheckedSend.step, hpc, Option.map_none]
  | sending k =>
    cases ret with
    | eintr =>
      simp only [echoSends, Handler.at, CheckedSend.step, hpc, step, sendEvent,
        Handler.sends, CheckedSend.test, Option.map_some]
      split_ifs <;> rfl
    | moved n =>
      simp only [echoSends, Handler.at, CheckedSend.step, hpc, step, sendEvent,
        Handler.sends, CheckedSend.test]
      split_ifs <;> simp only [Option.map_some, Option.map_none, Handler.at, List.append_assoc]

theorem Handler.at_start {sending : ℕ → Pc} {msg_len : ℕ} (hpos : 0 < msg_len)
    (hpc : s.pc = sending 0) : s.at sending (CheckedSend.start msg_len) = s := by
  rw [Handler.at, CheckedSend.start, CheckedSend.test_of_pos hpos]
  simp only [List.append_nil, ← hpc]

theorem Handler.at_eq_iff {sending : ℕ → Pc} {message : List Byte} {u : CheckedSend.State Byte}
    (hne : ∀ k, sending k ≠ .pass) :
    s.at sending u = { s with pc := .pass, sent := s.sent ++ message } ↔
      u.pc = .ended ∧ u.accepted = message := by
  constructor
  · intro h
    refine ⟨?_, List.append_cancel_left (congrArg Handler.sent h)⟩
    have hpc := congrArg Handler.pc h
    cases hu : u.pc with
    | ended => rfl
    | sending k =>
      simp only [Handler.at, hu] at hpc
      exact absurd hpc (hne k)
    | failed =>
      simp only [Handler.at, hu] at hpc
      cases hpc
  · rintro ⟨hpc, rfl⟩
    simp only [Handler.at, hpc]

/-- The first loop of the handler is a loop with a check. -/
theorem handler_welcomes (hpc : s.pc = .welcoming 0) :
    Passes (welcomeSends s) s (s.buf.load 0 welcome.length) rets ↔
      Delivers bufSize s.buf welcome.length rets := by
  have hrun := CheckedSend.run_eq_iff_delivers (N := welcomeSends s) (f := s.at .welcoming)
    (fun u ret _ => handler_welcomes_step u ret) (fun u => Handler.at_eq_iff nofun) rets
  rwa [Handler.at_start (by rw [length_welcome]; decide) hpc] at hrun

/-- The loop of the echo is a loop with a check. -/
theorem handler_echoes (hpos : 0 < recv_bytes) (hpc : s.pc = .sending recv_bytes 0) :
    Passes (echoSends s) s (s.buf.load 0 recv_bytes) rets ↔
      Delivers recv_bytes s.buf recv_bytes rets := by
  have hrun := CheckedSend.run_eq_iff_delivers (N := echoSends s) (f := s.at (.sending recv_bytes))
    (fun u ret _ => handler_echoes_step u ret) (fun u => Handler.at_eq_iff nofun) rets
  rwa [Handler.at_start hpos hpc] at hrun

end EchoServer

/-! ### The client -/

namespace LineClient

open EchoServer (SERVER_COMMAND)

/-- A result of `send`. -/
def sendEvent : Ret → Event
  | .eintr => .interrupted
  | .moved n => .taken n

/-- The loop that sends the message. -/
def messageSends (s₀ : State) : Machine State Ret where
  init s := s = s₀
  step s ret :=
    match s.pc with
    | .sending _ _ => step s (sendEvent ret)
    | _ => none

/-- The client gets after the loop, and `message` has been taken. -/
def Passes (s : State) (message : List Byte) (rets : List Ret) : Prop :=
  (messageSends s).run s rets
    = some ({ s with sent := s.sent ++ message }.hasSent message.length)

/-- The client where the loop with a check is. -/
def State.at (s : State) (msg_len : ℕ) (u : CheckedSend.State Byte) : State :=
  let s := { s with sent := s.sent ++ u.accepted }
  match u.pc with
  | .sending bytes_sent => { s with pc := .sending msg_len bytes_sent }
  | .ended => s.hasSent msg_len
  | .failed => { s with pc := .failed }

variable {s : State} {msg_len : ℕ} {rets : List Ret}

theorem client_sends_step {u : CheckedSend.State Byte} (hu : u.Within msg_len) (ret : Ret) :
    (messageSends s).step (s.at msg_len u) ret
      = (CheckedSend.step msg_len s.buf msg_len u ret).map (s.at msg_len) := by
  cases hpc : u.pc with
  | ended =>
    simp only [messageSends, State.at, CheckedSend.step, hpc, Option.map_none, State.hasSent]
    split_ifs <;> rfl
  | failed => simp only [messageSends, State.at, CheckedSend.step, hpc, Option.map_none]
  | sending k =>
    cases ret with
    | eintr =>
      have hlt : 0 < msg_len - k := Nat.sub_pos_of_lt (hu k hpc)
      simp only [messageSends, State.at, CheckedSend.step, hpc, step, sendEvent, State.sends,
        CheckedSend.test, Option.map_some, if_pos hlt]
    | moved n =>
      simp only [messageSends, State.at, CheckedSend.step, hpc, step, sendEvent]
      split_ifs with hn hne
      · simp only [Option.map_some, State.at, List.append_assoc]
      · -- what is not an error is the whole message, and the loop is over
        obtain rfl := not_not.mp hne
        obtain rfl : k = 0 := by omega
        rw [Nat.zero_add, CheckedSend.test_self, State.sends,
          if_neg (by rw [Nat.sub_self]; exact lt_irrefl 0), List.append_assoc]
        rfl
      · rfl

theorem State.at_start (hpos : 0 < msg_len) (hpc : s.pc = .sending msg_len 0) :
    s.at msg_len (CheckedSend.start msg_len) = s := by
  rw [State.at, CheckedSend.start, CheckedSend.test_of_pos hpos]
  simp only [List.append_nil, ← hpc]

theorem State.at_eq_iff {message : List Byte} {u : CheckedSend.State Byte} :
    s.at msg_len u = { s with sent := s.sent ++ message }.hasSent msg_len ↔
      u.pc = .ended ∧ u.accepted = message := by
  have hpc : ∀ t : State, (t.hasSent msg_len).sent = t.sent ∧
      ((t.hasSent msg_len).pc = .left ∨ (t.hasSent msg_len).pc = .reply 0) := by
    intro t
    rw [State.hasSent]
    split_ifs
    · exact ⟨rfl, .inl rfl⟩
    · exact ⟨rfl, .inr rfl⟩
  constructor
  · intro h
    obtain ⟨hsent, hover⟩ := hpc { s with sent := s.sent ++ message }
    rw [← h] at hsent hover
    cases hu : u.pc with
    | ended =>
      simp only [State.at, hu] at hsent
      rw [(hpc _).1] at hsent
      exact ⟨rfl, List.append_cancel_left hsent⟩
    | sending k =>
      simp only [State.at, hu] at hover
      exact hover.elim nofun nofun
    | failed =>
      simp only [State.at, hu] at hover
      exact hover.elim nofun nofun
  · rintro ⟨hover, rfl⟩
    simp only [State.at, hover]

/-- The loop of the client is a loop with a check. -/
theorem client_sends (hpos : 0 < msg_len) (hpc : s.pc = .sending msg_len 0) :
    Passes s (s.buf.load 0 msg_len) rets ↔ Delivers msg_len s.buf msg_len rets := by
  have hrun := CheckedSend.run_eq_iff_delivers (N := messageSends s) (f := s.at msg_len)
    (fun u ret hu => client_sends_step hu ret) (fun u => State.at_eq_iff) rets
  rw [State.at_start hpos hpc] at hrun
  rwa [Passes, Memory.length_load]

end LineClient

/-! ### The three loops -/

namespace EchoSends

open EchoServer (bufSize)

/-- **The loops of `send`**: the one that sends the welcome message delivers no message at all;
the other two deliver a message if and only if the first `send` that is not interrupted takes all
of it. -/
theorem deliveries_iff {msg_len : ℕ} (hpos : 0 < msg_len) (hlt : msg_len < bufSize)
    (rets : List Ret) :
    (∀ buf : Memory Byte, ¬ Delivers bufSize buf msg_len rets) ∧
      (∀ s : EchoServer.Handler, s.pc = .welcoming 0 →
        ¬ EchoServer.Passes (EchoServer.welcomeSends s) s (s.buf.load 0 EchoServer.welcome.length)
          rets) ∧
      (∀ s : EchoServer.Handler, s.pc = .sending msg_len 0 →
        (EchoServer.Passes (EchoServer.echoSends s) s (s.buf.load 0 msg_len) rets ↔
          Whole msg_len rets)) ∧
      ∀ s : LineClient.State, s.pc = .sending msg_len 0 →
        (LineClient.Passes s (s.buf.load 0 msg_len) rets ↔ Whole msg_len rets) := by
  -- the test is against `buf_len`, and a whole delivery of fewer bytes fails it
  have hnever : ∀ {n : ℕ} {buf : Memory Byte}, 0 < n → n < bufSize →
      ¬ Delivers bufSize buf n rets := by
    intro n buf hn hsize h
    exact hsize.ne' ((CheckedSend.delivers_iff hn hsize.le).mp h).1
  have hwhole : ∀ {buf : Memory Byte}, Delivers msg_len buf msg_len rets ↔ Whole msg_len rets :=
    (CheckedSend.delivers_iff hpos le_rfl).trans (and_iff_right rfl)
  have hwelcome : 0 < EchoServer.welcome.length ∧ EchoServer.welcome.length < bufSize := by
    rw [EchoServer.length_welcome]
    decide
  refine ⟨fun _ => hnever hpos hlt, fun s hs => ?_, fun s hs => ?_, fun s hs => ?_⟩
  · rw [EchoServer.handler_welcomes hs]
    exact hnever hwelcome.1 hwelcome.2
  · rw [EchoServer.handler_echoes hpos hs, hwhole]
  · rw [LineClient.client_sends hpos hs, hwhole]

/-- An echo of two bytes, interrupted once, and then taken by one `send`. -/
theorem deliveries_two : EchoServer.Passes
    (EchoServer.echoSends (EchoServer.start (fun _ => 0) (.sending 2 0) []))
    (EchoServer.start (fun _ => 0) (.sending 2 0) [])
    ((EchoServer.start (fun _ => 0) (.sending 2 0) []).buf.load 0 2) [.eintr, .moved 2] :=
  ((deliveries_iff (by decide) (by decide) [.eintr, .moved 2]).2.2.1 _ rfl).mpr ⟨1, rfl⟩

/-- One `send` takes the whole welcome message, and the handler ends with an error. -/
theorem whole_welcome_fails : ∃ s s' : EchoServer.Handler,
    (EchoServer.connection_handler []).init s ∧
      (EchoServer.connection_handler []).run s [.taken EchoServer.welcome.length] = some s' ∧
      s'.sent = EchoServer.welcome ∧ s'.pc = .failed := by
  have hroom : 0 < EchoServer.welcome.length ∧
      EchoServer.welcome.length ≤ EchoServer.welcome.length - 0 := by
    rw [EchoServer.length_welcome]
    decide
  have hne : EchoServer.welcome.length ≠ bufSize := by
    rw [EchoServer.length_welcome]
    decide
  have hload : (EchoServer.welcomed fun _ => 0).load 0 EchoServer.welcome.length
      = EchoServer.welcome := Memory.load_store_left
  have hstep : (EchoServer.connection_handler []).step
      (EchoServer.start (fun _ => 0) (.welcoming 0) []) (.taken EchoServer.welcome.length)
      = some { EchoServer.start (fun _ => 0) (.welcoming 0) [] with
          pc := .failed, sent := EchoServer.welcome } := by
    simp only [EchoServer.connection_handler, EchoServer.step, EchoServer.start, hload,
      if_pos hroom, if_pos hne, List.nil_append]
  exact ⟨_, _, ⟨_, rfl⟩, Machine.run_cons hstep, rfl, rfl⟩

end EchoSends
