/-
The TIME service of Lab07/03: the server and any number of clients.

`main` of `server.c` accepts the connections of a queue one after the other, runs
`connection_handler` on each and closes it; an error in the handler ends the whole server.  A
connection carries two streams of bytes.  `recv` takes some of what has come, or tells that the
other end is closed; a call fails only when the other end is closed.

* `service` — the server and its clients, one step for each call;
* `Phase` — how far a connection is, by what `main` does with it;
* `Move` — what a step can do;
* `sound_reachable` — the loops of the two programs are entered by their tests only, and every
  connection is in a phase.
-/
import SistemiDiCalcolo.TimeClient
import SistemiDiCalcolo.TimeServerLengths

open AccessLog (Byte)
open Function (update)
open TimeServer (Params Handler Received Sent bufSize time)
open TimeClient (Client)

namespace TimeService

/-- A connection: the client's side, the bytes on their way to the server and to the client,
whether it is still in the queue of `listen`, and whether the server has closed it. -/
structure Connection where
  client : Client
  request : List Byte
  reply : List Byte
  queued : Bool
  closed : Bool

/-- `main` of the server: in `accept`, in `connection_handler` and the `close` at its end, or ended
with an error. -/
inductive Main (n : ℕ)
  | accepting
  | handling (i : Fin n) (s : Handler)
  | failed

structure State (n : ℕ) where
  main : Main n
  conn : Fin n → Connection

inductive Event (n : ℕ)
  | client (i : Fin n) (ev : TimeClient.Event)
  | accept (i : Fin n) (errno : CInt) (recvBuf sendBuf : Memory Byte)
  | handler (ev : TimeServer.Event)
  | close (ok : Bool)
  | sigpipeClient (i : Fin n)
  | sigpipeServer

/-- What is left of the bytes on their way after a `recv`; `hangup` tells that no more will come. -/
def arrives (bytes : List Byte) (hangup : Bool) : Received → Option (List Byte)
  | .chunk [] => if bytes = [] ∧ hangup then some [] else none
  | .chunk (b :: data) => if b :: data <+: bytes then some (bytes.drop (data.length + 1)) else none
  | .error _ => if hangup then some bytes else none

/-- The bytes on their way after a `send`; `hangup` tells that nobody will take them. -/
def leaves (buf : Memory Byte) (bytes : List Byte) (hangup : Bool) : Sent → Option (List Byte)
  | .taken n => some (bytes ++ buf.load 0 n)
  | .error _ => if hangup then some bytes else none

namespace Connection

/-- The process of the client has ended. -/
def gone (c : Connection) : Bool := c.client.pc = .exited ∨ c.client.pc = .failed

/-- A call of the client; `hangup` tells that the end of the server is closed. -/
def clientStep (prm : Params) (hangup : Bool) (c : Connection) (ev : TimeClient.Event) :
    Option Connection :=
  (TimeClient.step prm c.client ev).bind fun client =>
    match ev with
    | .send r => (leaves c.client.command c.request hangup r).map fun bytes =>
      { c with client := client, request := bytes }
    | .recv r => (arrives c.reply hangup r).map fun bytes =>
      { c with client := client, reply := bytes }
    | .close _ => some { c with client := client }

/-- A write to a closed connection ends the client. -/
def killed (c : Connection) : Connection :=
  { c with client := { c.client with pc := .failed } }

/-- What a call of the handler does to the connection. -/
def handlerStep (s : Handler) (c : Connection) : TimeServer.Event → Option Connection
  | .recv r => (arrives c.request c.gone r).map fun bytes => { c with request := bytes }
  | .send r => (leaves s.sendBuf c.reply c.gone r).map fun bytes => { c with reply := bytes }

end Connection

namespace State

variable {n : ℕ}

/-- The end of the server is closed, by `close` or with its process. -/
def hangup (σ : State n) (i : Fin n) : Bool :=
  (σ.conn i).closed || match σ.main with
    | .failed => true
    | .accepting | .handling _ _ => false

end State

/-- An error in the handler ends the process. -/
def handled {n : ℕ} (i : Fin n) (s : Handler) : Main n :=
  if s.pc = .failed then .failed else .handling i s

/-- The next call, or the signal of a write to a closed connection. -/
def step {n : ℕ} (prm : Params) (σ : State n) : Event n → Option (State n)
  | .client i ev => ((σ.conn i).clientStep prm (σ.hangup i) ev).map fun c =>
    { σ with conn := update σ.conn i c }
  | .accept i errno recvBuf sendBuf =>
    match σ.main with
    | .accepting =>
      if (σ.conn i).queued then
        some { σ with
          main := .handling i (TimeServer.start errno recvBuf sendBuf)
          conn := update σ.conn i { σ.conn i with queued := false } }
      else none
    | .handling _ _ | .failed => none
  | .handler ev =>
    match σ.main with
    | .handling i s => (TimeServer.step prm s ev).bind fun s' =>
      ((σ.conn i).handlerStep s ev).map fun c =>
        { σ with main := handled i s', conn := update σ.conn i c }
    | .accepting | .failed => none
  | .close ok =>
    match σ.main with
    | .handling i s =>
      if s.pc = .returned then
        some { σ with
          main := if ok then .accepting else .failed
          conn := update σ.conn i { σ.conn i with closed := true } }
      else none
    | .accepting | .failed => none
  | .sigpipeClient i =>
    if (σ.conn i).client.pc = .sending ∧ σ.hangup i then
      some { σ with conn := update σ.conn i (σ.conn i).killed }
    else none
  | .sigpipeServer =>
    match σ.main with
    | .handling i s =>
      if s.pc = .sending ∧ (σ.conn i).gone then some { σ with main := .failed } else none
    | .accepting | .failed => none

/-- A connection that has been established, in the queue. -/
structure Connection.Fresh (prm : Params) (c : Connection) : Prop where
  client : (TimeClient.client prm).init c.client
  request : c.request = []
  reply : c.reply = []
  queued : c.queued = true
  closed : c.closed = false

/-- The server in `accept`, with the connections of its clients in the queue. -/
def service (prm : Params) (n : ℕ) : Machine (State n) (Event n) where
  init σ := σ.main = .accepting ∧ ∀ i, (σ.conn i).Fresh prm
  step := step prm

/-- The connections of `n` clients, with all buffers empty. -/
def established (prm : Params) (n : ℕ) : State n where
  main := .accepting
  conn _ :=
    { client := TimeClient.start prm 0 (Memory.store (fun _ => 0) 0 prm.SERVER_COMMAND) fun _ => 0
      request := []
      reply := []
      queued := true
      closed := false }

theorem established_init {prm : Params} {n : ℕ} : (service prm n).init (established prm n) :=
  ⟨rfl, fun _ => ⟨⟨0, _, _, Memory.load_store, rfl⟩, rfl, rfl, rfl, rfl⟩⟩

/-! ### The calls -/

section Calls

variable {prm : Params} {bytes bytes' : List Byte} {hangup : Bool} {r : Received} {b : Byte}

/-- What a `recv` takes is what comes first, or nothing when the other end is closed. -/
theorem arrives_eq_some (h : arrives bytes hangup r = some bytes') :
    (∃ data, data ≠ [] ∧ r = .chunk data ∧ bytes = data ++ bytes') ∨
      hangup = true ∧ bytes' = bytes := by
  match r with
  | .chunk [] =>
    simp only [arrives] at h
    split_ifs at h with hhangup
    cases h
    exact .inr ⟨hhangup.2, hhangup.1.symm⟩
  | .chunk (b :: data) =>
    simp only [arrives] at h
    split_ifs at h with hprefix
    obtain ⟨rest, rfl⟩ := hprefix
    cases h
    refine .inl ⟨b :: data, List.cons_ne_nil b data, rfl, ?_⟩
    rw [← List.length_cons, List.drop_left]
  | .error e =>
    simp only [arrives] at h
    split_ifs at h with hhangup
    cases h
    exact .inr ⟨hhangup, rfl⟩

/-- A `recv` waits for the first byte. -/
theorem arrives_nil (h : arrives [] false r = some bytes') : False := by
  rcases arrives_eq_some h with ⟨data, hne, -, heq⟩ | ⟨hhangup, -⟩
  · exact hne (List.append_eq_nil_iff.mp heq.symm).1
  · cases hhangup

theorem arrives_cons (h : bytes = b :: bytes') :
    arrives bytes hangup (.chunk [b]) = some bytes' := by
  subst h
  rw [arrives, if_pos ⟨bytes', rfl⟩]
  rfl

theorem arrives_end (h : bytes = []) : arrives bytes true (.chunk []) = some [] := by
  rw [arrives, if_pos ⟨h, rfl⟩]

namespace Connection

variable {c : Connection} {client : Client} {s : Handler} {t : Sent}

theorem clientStep_recv (h : TimeClient.step prm c.client (.recv r) = some client)
    (hbytes : arrives c.reply hangup r = some bytes) :
    c.clientStep prm hangup (.recv r) = some { c with client := client, reply := bytes } := by
  rw [clientStep, h]
  show (arrives c.reply hangup r).map _ = _
  rw [hbytes]
  rfl

theorem clientStep_send (h : TimeClient.step prm c.client (.send t) = some client)
    (hbytes : leaves c.client.command c.request hangup t = some bytes) :
    c.clientStep prm hangup (.send t) = some { c with client := client, request := bytes } := by
  rw [clientStep, h]
  show (leaves c.client.command c.request hangup t).map _ = _
  rw [hbytes]
  rfl

theorem handlerStep_recv (hbytes : arrives c.request c.gone r = some bytes) :
    c.handlerStep s (.recv r) = some { c with request := bytes } := by
  rw [handlerStep, hbytes]
  rfl

end Connection

end Calls

/-! ### The tests of the loops -/

/-- Whoever is in a loop has passed its test. -/
structure ClientTested (prm : Params) (c : Client) : Prop where
  sending : c.pc = .sending →
    c.sender.pc = .sending ∧ 0 < c.sender.sendLen prm.allowed_command_len
  receiving : c.pc = .receiving → 0 < c.recvLen

structure HandlerTested (s : Handler) : Prop where
  receiving : s.pc = .receiving → 0 < s.recvLen
  sending : s.pc = .sending → 0 < s.sendLen

section Tests

variable {prm : Params} {c c' : Client} {s s' : Handler} {u u' : TimeServer.Sender}

theorem ClientTested.of_ne (hsending : c.pc ≠ .sending) (hreceiving : c.pc ≠ .receiving) :
    ClientTested prm c where
  sending h := absurd h hsending
  receiving h := absurd h hreceiving

theorem ClientTested.of_receiving (hpc : c.pc = .receiving) (hlen : 0 < c.recvLen) :
    ClientTested prm c where
  sending h := by
    rw [hpc] at h
    cases h
  receiving _ := hlen

theorem clientTested_ended (h : c.pc = .exited ∨ c.pc = .failed) : ClientTested prm c := by
  rcases h with h | h <;> exact .of_ne (by rw [h]; decide) (by rw [h]; decide)

theorem clientTested_ends : ClientTested prm c.ends := by
  rw [Client.ends]
  split_ifs <;> exact .of_ne (by simp) (by simp)

theorem clientTested_receives : ClientTested prm c.receives := by
  rw [Client.receives]
  split_ifs with hlen
  · exact .of_receiving rfl hlen
  · exact clientTested_ends

theorem clientTested_hasSent
    (hu : u.pc = .sending → 0 < u.sendLen prm.allowed_command_len) :
    ClientTested prm (c.hasSent u) := by
  rw [Client.hasSent]
  cases hpc : u.pc with
  | sending =>
    refine ⟨fun _ => ⟨hpc, hu hpc⟩, fun h => ?_⟩
    cases h
  | ended => exact clientTested_receives
  | failed => exact clientTested_ended (.inr rfl)

theorem sender_sends_tested {len : SizeT} (h : (u.sends len).pc = .sending) :
    0 < (u.sends len).sendLen len := by
  by_contra hlen
  have hsame : (u.sends len).pc = .ended := if_neg hlen
  rw [hsame] at h
  cases h

theorem sender_step_eq {buf : Memory Byte} {len : SizeT} {r : Sent}
    (h : u.step buf len r = some u') : u' = u.send buf len r := by
  simp only [TimeServer.Sender.step] at h
  split at h
  · split_ifs at h
    cases r with
    | taken n =>
      simp only at h
      split_ifs at h
      exact (Option.some.inj h).symm
    | error e => exact (Option.some.inj h).symm
  · cases h
  · cases h

theorem sender_step_tested {buf : Memory Byte} {len : SizeT} {r : Sent}
    (h : u.step buf len r = some u') (hpc : u'.pc = .sending) : 0 < u'.sendLen len := by
  rw [sender_step_eq h] at hpc ⊢
  rw [TimeServer.Sender.send] at hpc ⊢
  split_ifs at hpc ⊢
  · exact sender_sends_tested hpc
  · exact sender_sends_tested hpc

/-- What a call of the client can do. -/
theorem client_step_cases {ev : TimeClient.Event} (h : TimeClient.step prm c ev = some c') :
    (∃ r u, ev = .send r ∧ c.pc = .sending ∧
      c.sender.step c.command prm.allowed_command_len r = some u ∧ c' = c.hasSent u) ∨
    (∃ r, ev = .recv r ∧ c.pc = .receiving ∧ c' = c.recv r) ∨
    ∃ ok, ev = .close ok ∧ c.pc = .closing ∧
      (c'.pc = .exited ∧ c'.printed = Memory.cString bufSize c.recvBuf ∨ c'.pc = .failed) := by
  unfold TimeClient.step at h
  split at h
  case h_1 r hpc =>
    obtain ⟨u, hu, rfl⟩ := Option.map_eq_some_iff.mp h
    exact .inl ⟨r, u, rfl, hpc, hu, rfl⟩
  case h_2 data hpc =>
    split_ifs at h
    exact .inr (.inl ⟨_, rfl, hpc, (Option.some.inj h).symm⟩)
  case h_3 e hpc => exact .inr (.inl ⟨_, rfl, hpc, (Option.some.inj h).symm⟩)
  case h_4 hpc =>
    rw [← Option.some.inj h]
    exact .inr (.inr ⟨true, rfl, hpc, .inl ⟨rfl, rfl⟩⟩)
  case h_5 hpc =>
    rw [← Option.some.inj h]
    exact .inr (.inr ⟨false, rfl, hpc, .inr rfl⟩)
  case h_6 => cases h

/-- A call leaves the client at the test of a loop. -/
theorem clientTested_step {ev : TimeClient.Event} (h : TimeClient.step prm c ev = some c') :
    ClientTested prm c' := by
  rcases client_step_cases h with ⟨r, u, -, -, hu, rfl⟩ | ⟨r, -, -, rfl⟩ |
    ⟨ok, -, -, ⟨hpc, -⟩ | hpc⟩
  · exact clientTested_hasSent (sender_step_tested hu)
  · rw [Client.recv]
    split_ifs
    · exact clientTested_ends
    · exact clientTested_receives
    · exact clientTested_ended (.inr rfl)
    · exact clientTested_receives
  · exact clientTested_ended (.inl hpc)
  · exact clientTested_ended (.inr hpc)

theorem clientTested_start (h : (TimeClient.client prm).init c) : ClientTested prm c := by
  obtain ⟨errno, command, recvBuf, -, rfl⟩ := h
  exact clientTested_hasSent sender_sends_tested

theorem HandlerTested.of_ne (hreceiving : s.pc ≠ .receiving) (hsending : s.pc ≠ .sending) :
    HandlerTested s where
  receiving h := absurd h hreceiving
  sending h := absurd h hsending

theorem handlerTested_sends : HandlerTested s.sends := by
  rw [Handler.sends]
  split_ifs with hlen
  · refine ⟨fun h => ?_, fun _ => hlen⟩
    cases h
  · exact .of_ne (by simp) (by simp)

theorem handlerTested_receives : HandlerTested (s.receives prm) := by
  rw [Handler.receives]
  split_ifs with hlen
  · refine ⟨fun _ => hlen, fun h => ?_⟩
    cases h
  · exact handlerTested_sends

/-- What a call of the handler can do. -/
theorem handler_step_cases {ev : TimeServer.Event} (h : TimeServer.step prm s ev = some s') :
    (∃ r, ev = .recv r ∧ s.pc = .receiving ∧ r.length ≤ s.recvLen.toNat ∧ s' = s.recv prm r) ∨
      ∃ r, ev = .send r ∧ s.pc = .sending ∧ s' = s.send r := by
  cases ev with
  | recv r => exact .inl ⟨r, rfl, TimeServer.step_recv h⟩
  | send r =>
    cases hpc : s.pc with
    | receiving | returned | failed =>
      cases r <;> simp only [TimeServer.step, hpc] at h <;> cases h
    | sending =>
      cases r with
      | error e =>
        simp only [TimeServer.step, hpc] at h
        exact .inr ⟨_, rfl, rfl, (Option.some.inj h).symm⟩
      | taken k =>
        simp only [TimeServer.step, hpc] at h
        split_ifs at h
        exact .inr ⟨_, rfl, rfl, (Option.some.inj h).symm⟩

/-- A call leaves the handler at the test of a loop. -/
theorem handlerTested_step {ev : TimeServer.Event} (h : TimeServer.step prm s ev = some s') :
    HandlerTested s' := by
  rcases handler_step_cases h with ⟨r, -, -, -, rfl⟩ | ⟨r, -, -, rfl⟩
  · rw [Handler.recv]
    split_ifs
    · exact .of_ne (by simp) (by simp)
    · exact handlerTested_receives
    · exact .of_ne (by simp) (by simp)
    · exact handlerTested_sends
    · exact handlerTested_receives
  · rw [Handler.send]
    split_ifs
    · exact handlerTested_sends
    · exact .of_ne (by simp) (by simp)
    · exact handlerTested_sends

theorem send_pc_ne (r : Sent) : (s.send r).pc ≠ .receiving := by
  rw [Handler.send]
  split_ifs
  · exact TimeServer.sends_pc_ne
  · simp
  · exact TimeServer.sends_pc_ne

end Tests

/-! ### The connections -/

/-- Nothing has been sent to the client. -/
structure Early (c : Connection) : Prop where
  reply : c.reply = []
  closed : c.closed = false
  recvBytes : c.client.recvBytes = 0
  pc : c.client.pc = .sending ∨ c.client.pc = .receiving ∨ c.client.pc = .failed

/-- Where the server is with a connection: it is in the queue, in one of the two loops of the
handler, or closed.  As long as the client is there, what has been counted and what is on its way
has been sent. -/
inductive Phase {n : ℕ} (main : Main n) (i : Fin n) (c : Connection) : Prop
  | queued : c.queued = true → (∀ s, main ≠ .handling i s) → Early c →
      c.request.length ≤ c.client.sender.taken.length → Phase main i c
  | receiving (s : Handler) : main = .handling i s → s.pc = .receiving → c.queued = false →
      Early c →
      (c.client.pc ≠ .failed → ∃ k ≤ bufSize, s.recvBytes = BitVec.ofNat 32 k ∧
        k + c.request.length ≤ c.client.sender.taken.length) → Phase main i c
  | replying (s : Handler) : main = .handling i s → s.pc = .sending ∨ s.pc = .returned →
      c.queued = false → c.closed = false → Phase main i c
  | served : (∀ s, main ≠ .handling i s) → c.queued = false → c.closed = true → Phase main i c

section Connections

variable {n : ℕ} {prm : Params} {σ σ' : State n} {i j : Fin n} {c c' : Connection} {s s' : Handler}
  {u u' : TimeServer.Sender} {ev : TimeClient.Event}

theorem sender_step_taken {buf : Memory Byte} {len : SizeT} {r : Sent}
    (h : u.step buf len r = some u') : u'.taken = (u.sent buf r).taken := by
  rw [sender_step_eq h, TimeServer.Sender.send]
  split_ifs <;> rfl

/-- After the loop of `send` comes that of `recv`. -/
theorem hasSent_early (client : Client) (hbytes : client.recvBytes = 0) :
    (client.hasSent u).recvBytes = 0 ∧ ((client.hasSent u).pc = .sending ∨
      (client.hasSent u).pc = .receiving ∨ (client.hasSent u).pc = .failed) := by
  rw [Client.hasSent]
  cases u.pc with
  | sending => exact ⟨hbytes, .inl rfl⟩
  | failed => exact ⟨hbytes, .inr (.inr rfl)⟩
  | ended =>
    have hreceives := Client.receives_of_lt (s := { client with sender := u }) (k := 0) hbytes
      (by decide)
    show (Client.receives { client with sender := u }).recvBytes = 0 ∧
      ((Client.receives { client with sender := u }).pc = .sending ∨ _)
    rw [hreceives]
    exact ⟨hbytes, .inr (.inl rfl)⟩

/-- What has been sent is on its way. -/
theorem Early.clientStep (hc : Early c) (h : c.clientStep prm false ev = some c') :
    Early c' ∧ c'.queued = c.queued ∧ c.client.pc = .sending ∧ ∃ d,
      c'.request.length = c.request.length + d ∧
        c'.client.sender.taken.length = c.client.sender.taken.length + d := by
  obtain ⟨client, hclient, h⟩ := Option.bind_eq_some_iff.mp h
  rcases client_step_cases hclient with ⟨r, u, rfl, hpc, hu, rfl⟩ | ⟨r, rfl, -, -⟩ |
    ⟨ok, rfl, hpc, -⟩
  · obtain ⟨bytes, hbytes, rfl⟩ := Option.map_eq_some_iff.mp h
    cases r with
    | error e => cases hbytes
    | taken k =>
      obtain rfl := Option.some.inj hbytes
      obtain ⟨hsender, -, -⟩ := Client.sender_hasSent (s := c.client) u
      have hsent := hasSent_early c.client hc.recvBytes (u := u)
      refine ⟨⟨hc.reply, hc.closed, hsent.1, hsent.2⟩, rfl, hpc, k, ?_, ?_⟩
      · rw [List.length_append, Memory.length_load]
      · show (c.client.hasSent u).sender.taken.length = _
        rw [hsender, sender_step_taken hu]
        show (c.client.sender.taken ++ c.client.command.load 0 k).length = _
        rw [List.length_append, Memory.length_load]
  · obtain ⟨bytes, hbytes, -⟩ := Option.map_eq_some_iff.mp h
    rw [hc.reply] at hbytes
    exact (arrives_nil hbytes).elim
  · rcases hc.pc with hother | hother | hother
    all_goals
      rw [hpc] at hother
      cases hother

theorem clientStep_frame {hangup : Bool} (h : c.clientStep prm hangup ev = some c') :
    c'.queued = c.queued ∧ c'.closed = c.closed := by
  obtain ⟨client, -, h⟩ := Option.bind_eq_some_iff.mp h
  cases ev with
  | send r | recv r =>
    obtain ⟨bytes, -, rfl⟩ := Option.map_eq_some_iff.mp h
    exact ⟨rfl, rfl⟩
  | close ok =>
    cases h
    exact ⟨rfl, rfl⟩

/-- What a step can do. -/
inductive Move (prm : Params) (σ : State n) : Event n → State n → Prop
  | client (i : Fin n) (ev : TimeClient.Event) (c : Connection) :
      (σ.conn i).clientStep prm (σ.hangup i) ev = some c →
      Move prm σ (.client i ev) { σ with conn := update σ.conn i c }
  | accept (i : Fin n) (errno : CInt) (recvBuf sendBuf : Memory Byte) : σ.main = .accepting →
      (σ.conn i).queued = true →
      Move prm σ (.accept i errno recvBuf sendBuf)
        { main := .handling i (TimeServer.start errno recvBuf sendBuf)
          conn := update σ.conn i { σ.conn i with queued := false } }
  | handler (i : Fin n) (s s' : Handler) (ev : TimeServer.Event) (c : Connection) :
      σ.main = .handling i s → TimeServer.step prm s ev = some s' →
      (σ.conn i).handlerStep s ev = some c →
      Move prm σ (.handler ev) { main := handled i s', conn := update σ.conn i c }
  | close (i : Fin n) (s : Handler) (ok : Bool) : σ.main = .handling i s → s.pc = .returned →
      Move prm σ (.close ok)
        { main := if ok then .accepting else .failed
          conn := update σ.conn i { σ.conn i with closed := true } }
  | sigpipeClient (i : Fin n) : (σ.conn i).client.pc = .sending → σ.hangup i = true →
      Move prm σ (.sigpipeClient i) { σ with conn := update σ.conn i (σ.conn i).killed }
  | sigpipeServer (i : Fin n) (s : Handler) : σ.main = .handling i s → s.pc = .sending →
      (σ.conn i).gone = true → Move prm σ .sigpipeServer { σ with main := .failed }

theorem step_move {ev : Event n} (h : step prm σ ev = some σ') : Move prm σ ev σ' := by
  cases ev with
  | client i ev =>
    obtain ⟨c, hc, rfl⟩ := Option.map_eq_some_iff.mp h
    exact .client i ev c hc
  | accept i errno recvBuf sendBuf =>
    simp only [step] at h
    split at h
    · rename_i hmain
      split_ifs at h with hqueued
      rw [← Option.some.inj h]
      exact .accept i errno recvBuf sendBuf hmain hqueued
    · cases h
    · cases h
  | handler ev =>
    simp only [step] at h
    split at h
    · rename_i i s hmain
      obtain ⟨s', hs', h⟩ := Option.bind_eq_some_iff.mp h
      obtain ⟨c, hc, rfl⟩ := Option.map_eq_some_iff.mp h
      exact .handler i s s' ev c hmain hs' hc
    · cases h
    · cases h
  | close ok =>
    simp only [step] at h
    split at h
    · rename_i i s hmain
      by_cases hpc : s.pc = .returned
      · rw [if_pos hpc] at h
        rw [← Option.some.inj h]
        exact .close i s ok hmain hpc
      · rw [if_neg hpc] at h
        cases h
    · cases h
    · cases h
  | sigpipeClient i =>
    simp only [step] at h
    split_ifs at h with hpc
    rw [← Option.some.inj h]
    exact .sigpipeClient i hpc.1 hpc.2
  | sigpipeServer =>
    simp only [step] at h
    split at h
    · rename_i i s hmain
      split_ifs at h with hpc
      rw [← Option.some.inj h]
      exact .sigpipeServer i s hmain hpc.1 hpc.2
    · cases h
    · cases h

theorem Phase.of_main {main main' : Main n} (h : Phase main j c)
    (hmain : ∀ s, main ≠ .handling j s) (hmain' : ∀ s, main' ≠ .handling j s) :
    Phase main' j c := by
  cases h with
  | queued hqueued _ hearly hlen => exact .queued hqueued hmain' hearly hlen
  | receiving s hs _ _ _ _ => exact absurd hs (hmain s)
  | replying s hs _ _ _ => exact absurd hs (hmain s)
  | served _ hqueued hclosed => exact .served hmain' hqueued hclosed

/-- A call of the client, with the server there. -/
theorem Phase.clientStep {main : Main n} (h : Phase main i c) {hangup : Bool}
    (hhangup : hangup = c.closed) (hstep : c.clientStep prm hangup ev = some c') :
    Phase main i c' := by
  subst hhangup
  cases h with
  | queued hqueued hmain hearly hlen =>
    rw [hearly.closed] at hstep
    obtain ⟨hearly', hsame, -, d, hrequest, htaken⟩ := hearly.clientStep hstep
    exact .queued (hsame.trans hqueued) hmain hearly' (by omega)
  | receiving s hs hpc hqueued hearly hcount =>
    rw [hearly.closed] at hstep
    obtain ⟨hearly', hsame, hsending, d, hrequest, htaken⟩ := hearly.clientStep hstep
    have hthere : c.client.pc ≠ .failed := fun hfailed => by
      rw [hfailed] at hsending
      cases hsending
    obtain ⟨k, hk, hbytes, hle⟩ := hcount hthere
    exact .receiving s hs hpc (hsame.trans hqueued) hearly' fun _ => ⟨k, hk, hbytes, by omega⟩
  | replying s hs hpc hqueued hclosed =>
    obtain ⟨hqueued', hclosed'⟩ := clientStep_frame hstep
    exact .replying s hs hpc (hqueued'.trans hqueued) (hclosed'.trans hclosed)
  | served hmain hqueued hclosed =>
    obtain ⟨hqueued', hclosed'⟩ := clientStep_frame hstep
    exact .served hmain (hqueued'.trans hqueued) (hclosed'.trans hclosed)

/-- A chunk is counted or left out. -/
theorem recv_counted (prm : Params) {k : ℕ} {data : List Byte}
    (hbytes : s.recvBytes = BitVec.ofNat 32 k) (hk : k ≤ bufSize)
    (hlen : data.length ≤ s.recvLen.toNat) :
    ∃ k' ≤ bufSize, (s.recv prm (.chunk data)).recvBytes = BitVec.ofNat 32 k' ∧
      k' ≤ k + data.length := by
  rw [TimeServer.toNat_recvLen hbytes hk] at hlen
  have hsum : s.recvBytes + Received.ret (.chunk data) = BitVec.ofNat 32 (k + data.length) := by
    rw [hbytes, Received.ret, BitVec.ofNat_add]
  rw [Handler.recv]
  split_ifs
  · exact ⟨k, hk, hbytes, Nat.le_add_right k _⟩
  · exact ⟨k, hk, TimeServer.receives_recvBytes.trans hbytes, Nat.le_add_right k _⟩
  · exact ⟨k, hk, hbytes, Nat.le_add_right k _⟩
  · exact ⟨k + data.length, by omega, TimeServer.replies_recvBytes.1.trans hsum, le_rfl⟩
  · exact ⟨k + data.length, by omega, TimeServer.receives_recvBytes.trans hsum, le_rfl⟩

/-- A call of the handler ends the server or leaves it in one of the two loops. -/
theorem Phase.handlerStep {ev : TimeServer.Event} (h : Phase (.handling i s) i c)
    (hs : TimeServer.step prm s ev = some s') (hc : c.handlerStep s ev = some c') :
    s'.pc = .failed ∨ Phase (.handling i s') i c' := by
  by_cases hfailed : s'.pc = .failed
  · exact .inl hfailed
  refine .inr ?_
  rcases handler_step_cases hs with ⟨r, rfl, hpc, hlen, rfl⟩ | ⟨r, rfl, hpc, rfl⟩
  · obtain ⟨bytes, hbytes, rfl⟩ := Option.map_eq_some_iff.mp hc
    cases h with
    | queued _ hmain _ _ => exact absurd rfl (hmain s)
    | served hmain _ _ => exact absurd rfl (hmain s)
    | replying t ht hother _ _ =>
      cases ht
      rw [hpc] at hother
      rcases hother with hother | hother <;> cases hother
    | receiving t ht _ hqueued hearly hcount =>
      cases ht
      cases hpc' : (s.recv prm r).pc with
      | failed => exact absurd hpc' hfailed
      | sending => exact .replying _ rfl (.inl hpc') hqueued hearly.closed
      | returned => exact .replying _ rfl (.inr hpc') hqueued hearly.closed
      | receiving =>
        refine .receiving _ rfl hpc' hqueued ⟨hearly.reply, hearly.closed, hearly.recvBytes,
          hearly.pc⟩ fun hthere => ?_
        obtain ⟨k, hk, hkbytes, hle⟩ := hcount hthere
        have hgone : c.gone = false := by
          rcases hearly.pc with hother | hother | hother
          · simp [Connection.gone, hother]
          · simp [Connection.gone, hother]
          · exact absurd hother hthere
        rw [hgone] at hbytes
        rcases arrives_eq_some hbytes with ⟨data, -, rfl, heq⟩ | ⟨hhangup, -⟩
        · -- what has arrived and what is on its way make up what the client has sent
          obtain ⟨k', hk', hkbytes', hle'⟩ := recv_counted prm hkbytes hk hlen
          have hsplit := congrArg List.length heq
          rw [List.length_append] at hsplit
          have hall : k' + bytes.length ≤ c.client.sender.taken.length := by omega
          exact ⟨k', hk', hkbytes', hall⟩
        · cases hhangup
  · obtain ⟨bytes, hbytes, rfl⟩ := Option.map_eq_some_iff.mp hc
    cases h with
    | queued _ hmain _ _ => exact absurd rfl (hmain s)
    | served hmain _ _ => exact absurd rfl (hmain s)
    | receiving t ht hother _ _ _ =>
      cases ht
      rw [hpc] at hother
      cases hother
    | replying t ht _ hqueued hclosed =>
      cases ht
      cases hpc' : (s.send r).pc with
      | failed => exact absurd hpc' hfailed
      | receiving => exact absurd hpc' (send_pc_ne r)
      | sending => exact .replying _ rfl (.inl hpc') hqueued hclosed
      | returned => exact .replying _ rfl (.inr hpc') hqueued hclosed

/-! ### The whole service -/

/-- The loops and, unless the server has ended, the connections. -/
structure Sound (prm : Params) (σ : State n) : Prop where
  client : ∀ i, ClientTested prm (σ.conn i).client
  handler : ∀ i s, σ.main = .handling i s → s.pc ≠ .failed ∧ HandlerTested s
  phase : σ.main = .failed ∨ ∀ i, Phase σ.main i (σ.conn i)

theorem sound_init (h : (service prm n).init σ) : Sound prm σ := by
  obtain ⟨hmain, hfresh⟩ := h
  refine ⟨fun i => clientTested_start (hfresh i).client, fun i s hs => ?_, .inr fun i => ?_⟩
  · rw [hmain] at hs
    cases hs
  · have hc := hfresh i
    refine .queued hc.queued (fun s hs => ?_) ⟨hc.reply, hc.closed, ?_, ?_⟩ ?_
    · rw [hmain] at hs
      cases hs
    · obtain ⟨errno, command, recvBuf, -, hstart⟩ := hc.client
      rw [hstart]
      exact (hasSent_early _ rfl).1
    · obtain ⟨errno, command, recvBuf, -, hstart⟩ := hc.client
      rw [hstart]
      exact (hasSent_early _ rfl).2
    · rw [hc.request]
      exact Nat.zero_le _

theorem hangup_eq (hmain : σ.main ≠ .failed) : σ.hangup i = (σ.conn i).closed := by
  rw [State.hangup]
  cases h : σ.main with
  | failed => exact absurd h hmain
  | accepting | handling _ _ => exact Bool.or_false _

theorem hangup_of_failed (hmain : σ.main = .failed) : σ.hangup i = true := by
  rw [State.hangup, hmain]
  exact Bool.or_true _

theorem main_eq {σ : State n} {t : Handler} (h : σ.main = .handling i s)
    (ht : σ.main = .handling j t) : i = j ∧ s = t := by
  rw [h] at ht
  cases ht
  exact ⟨rfl, rfl⟩

/-- What holds of one connection, and of the others. -/
theorem forall_update {P : Fin n → Connection → Prop} (hi : P i c)
    (hother : ∀ j, j ≠ i → P j (σ.conn j)) (j : Fin n) : P j (update σ.conn i c j) := by
  by_cases hj : j = i
  · subst hj
    rw [Function.update_self]
    exact hi
  · rw [Function.update_of_ne hj]
    exact hother j hj

theorem Sound.tested (hσ : Sound prm σ) (hc : ClientTested prm c.client) (j : Fin n) :
    ClientTested prm (update σ.conn i c j).client :=
  forall_update (P := fun _ c => ClientTested prm c.client) hc (fun j _ => hσ.client j) j

theorem clientTested_clientStep {hangup : Bool} (h : c.clientStep prm hangup ev = some c') :
    ClientTested prm c'.client := by
  obtain ⟨client, hstep, h⟩ := Option.bind_eq_some_iff.mp h
  cases ev with
  | send r | recv r =>
    obtain ⟨bytes, -, rfl⟩ := Option.map_eq_some_iff.mp h
    exact clientTested_step hstep
  | close ok =>
    obtain rfl := Option.some.inj h
    exact clientTested_step hstep

theorem client_handlerStep {ev : TimeServer.Event} (h : c.handlerStep s ev = some c') :
    c'.client = c.client := by
  cases ev with
  | send r | recv r =>
    obtain ⟨bytes, -, rfl⟩ := Option.map_eq_some_iff.mp h
    rfl

theorem Sound.step {ev : Event n} (hσ : Sound prm σ) (h : (service prm n).step σ ev = some σ') :
    Sound prm σ' := by
  cases step_move h with
  | client i ev c hc =>
    refine ⟨hσ.tested (clientTested_clientStep hc), hσ.handler, ?_⟩
    by_cases hmain : σ.main = .failed
    · exact .inl hmain
    have hphase := hσ.phase.resolve_left hmain
    exact .inr (forall_update ((hphase i).clientStep (hangup_eq hmain) hc) fun j _ => hphase j)
  | accept i errno recvBuf sendBuf hmain hqueued =>
    have hphase := hσ.phase.resolve_left (by rw [hmain]; exact nofun)
    have haccepting : ∀ j s, σ.main ≠ .handling j s := by
      intro j s
      rw [hmain]
      exact nofun
    refine ⟨hσ.tested (hσ.client i), fun j s hs => ?_, .inr (forall_update ?_ fun j hj => ?_)⟩
    · cases hs
      exact ⟨nofun, fun _ => show 0 < TimeServer.recv_buf_len - toSize 0 by decide, nofun⟩
    · cases hphase i with
      | queued _ _ hearly hlen =>
        exact .receiving _ rfl rfl rfl ⟨hearly.reply, hearly.closed, hearly.recvBytes, hearly.pc⟩
          fun _ => ⟨0, Nat.zero_le _, rfl, (Nat.zero_add _).le.trans hlen⟩
      | receiving s hs _ _ _ _ => exact absurd hs (haccepting i s)
      | replying s hs _ _ _ => exact absurd hs (haccepting i s)
      | served _ hnot _ =>
        rw [hqueued] at hnot
        cases hnot
    · refine (hphase j).of_main (haccepting j) fun s hs => ?_
      cases hs
      exact hj rfl
  | handler i s s' ev c hmain hs hc =>
    have hphase := hσ.phase.resolve_left (by rw [hmain]; exact nofun)
    have hi := hphase i
    rw [hmain] at hi
    refine ⟨hσ.tested ?_, fun j t ht => ?_, ?_⟩
    · rw [client_handlerStep hc]
      exact hσ.client i
    · rw [handled] at ht
      split_ifs at ht with hfailed
      cases ht
      exact ⟨hfailed, handlerTested_step hs⟩
    · rcases hi.handlerStep hs hc with hfailed | hi'
      · exact .inl (if_pos hfailed)
      · by_cases hfailed : s'.pc = .failed
        · exact .inl (if_pos hfailed)
        have hmain' : handled i s' = .handling i s' := if_neg hfailed
        refine .inr ?_
        rw [hmain']
        refine forall_update hi' fun j hj => (hphase j).of_main (fun t ht => ?_) fun t ht => ?_
        · exact hj (main_eq hmain ht).1.symm
        · cases ht
          exact hj rfl
  | close i s ok hmain hpc =>
    have hphase := hσ.phase.resolve_left (by rw [hmain]; exact nofun)
    refine ⟨hσ.tested (hσ.client i), fun j t ht => ?_, ?_⟩
    · cases ok <;> cases ht
    · cases ok with
      -- a `close` that fails ends the server
      | false => exact .inl rfl
      | true =>
        refine .inr (forall_update (.served nofun ?_ rfl) fun j hj => ?_)
        · cases hphase i with
          | queued _ hnot _ _ => exact absurd hmain (hnot s)
          | served hnot _ _ => exact absurd hmain (hnot s)
          | receiving _ _ _ hqueued _ _ => exact hqueued
          | replying _ _ _ hqueued _ => exact hqueued
        · exact (hphase j).of_main (fun t ht => hj (main_eq hmain ht).1.symm) nofun
  | sigpipeClient i hpc hhangup =>
    refine ⟨hσ.tested (clientTested_ended (.inr rfl)), hσ.handler, ?_⟩
    by_cases hmain : σ.main = .failed
    · exact .inl hmain
    have hphase := hσ.phase.resolve_left hmain
    have hclosed : (σ.conn i).closed = true := (hangup_eq hmain).symm.trans hhangup
    refine .inr (forall_update ?_ fun j _ => hphase j)
    cases hphase i with
    | queued _ _ hearly _ =>
      rw [hearly.closed] at hclosed
      cases hclosed
    | receiving _ _ _ _ hearly _ =>
      rw [hearly.closed] at hclosed
      cases hclosed
    | replying _ _ _ _ hnot =>
      rw [hnot] at hclosed
      cases hclosed
    | served hnot hqueued _ => exact .served hnot hqueued hclosed
  | sigpipeServer i s hmain hpc hgone => exact ⟨hσ.client, nofun, .inl rfl⟩

theorem sound_reachable (h : (service prm n).Reachable σ) : Sound prm σ :=
  h.invariant (fun _ => sound_init) fun _ _ _ _ hσ => hσ.step

end Connections

end TimeService
