/-
The TIME service of Lab07/03 when every transfer is whole.

Each `send` takes all it is given, each `recv` all that has come, and no call fails.  Every
connection then goes through the same calls, eight of them, in an order that the server and the
client agree on.

* `Stage` — how many calls are left on a connection;
* `AtStages.step` — a call brings one connection on by one stage;
* `answers` — every client is told the time, after eight calls for each.
-/
import SistemiDiCalcolo.TimeServiceEnd
import SistemiDiCalcolo.Tally

open AccessLog (Byte)
open Function (update)
open TimeServer (Params Handler Received Sent Sender Answered bufSize time)
open TimeClient (Client Awaiting)

namespace TimeService

variable {n : ℕ} {prm : Params} {σ σ' : State n} {i j : Fin n} {c c' : Connection} {s s' : Handler}
  {client client' : Client} {k : ℕ}

/-- The call of the client moves all there is to move, and does not fail. -/
def WholeCall (prm : Params) (c : Connection) : TimeClient.Event → Prop
  | .send r => r = .taken (c.client.sender.sendLen prm.allowed_command_len).toNat
  | .recv r => r = .chunk c.reply
  | .close ok => ok = true

/-- The same for the calls of the server too. -/
def Whole (prm : Params) (σ : State n) : Event n → Prop
  | .client i ev => WholeCall prm (σ.conn i) ev
  | .handler (.recv r) => ∀ i s, σ.main = .handling i s → r = .chunk (σ.conn i).request
  | .handler (.send r) => ∀ i s, σ.main = .handling i s → r = .taken s.sendLen.toNat
  | .close ok => ok = true
  | .accept _ _ _ _ | .sigpipeClient _ | .sigpipeServer => True

/-! ### The client -/

theorem awaiting_hasSent {u : Sender} (hbytes : client.recvBytes = 0) (hu : u.pc = .ended) :
    Awaiting (client.hasSent u) := by
  have hreceives := Client.receives_of_lt (s := { client with sender := u }) (k := 0) hbytes
    (by decide)
  have hnext : client.hasSent u = { client with sender := u, pc := .receiving } := by
    rw [Client.hasSent, hu]
    exact hreceives
  rw [hnext]
  exact ⟨rfl, hbytes⟩

/-- A client that has sent nothing sends the command. -/
theorem client_sends (htwo : 2 ≤ prm.SERVER_COMMAND.length)
    (h : (TimeClient.client prm).init client) :
    client.pc = .sending ∧
      (client.sender.sendLen prm.allowed_command_len).toNat = prm.SERVER_COMMAND.length ∧
      client.command.load 0 prm.SERVER_COMMAND.length = prm.SERVER_COMMAND ∧
      ∃ client', Awaiting client' ∧
        TimeClient.step prm client (.send (.taken prm.SERVER_COMMAND.length)) = some client' := by
  obtain ⟨errno, command, recvBuf, hcommand, rfl⟩ := h
  have hL : prm.SERVER_COMMAND.length < 2 ^ 31 := prm.command_le.trans_lt (by decide)
  have hne : prm.SERVER_COMMAND ≠ [] := List.length_pos_iff.mp prm.command_pos
  -- the loop of `send` at its start, with the whole command before it
  have hexact : (Sender.start prm.allowed_command_len errno).Exact prm.SERVER_COMMAND
      prm.SERVER_COMMAND := Sender.exact_sends hL (List.nil_append _) (by rfl)
  have hstarted := Client.sender_hasSent
    (s := ⟨.sending, command, .start prm.allowed_command_len errno, recvBuf, 0, []⟩)
    (.start prm.allowed_command_len errno)
  have hsender : (TimeClient.start prm errno command recvBuf).sender
      = .start prm.allowed_command_len errno := hstarted.1
  have hbuf : (TimeClient.start prm errno command recvBuf).command = command := hstarted.2.1
  have hpc := hexact.pc
  rw [if_neg hne] at hpc
  have hsending : (TimeClient.start prm errno command recvBuf).pc = .sending :=
    hstarted.2.2.mpr hpc
  have hlen := Sender.toNat_sendLen (s := Sender.start prm.allowed_command_len errno) hL
    (by rw [hexact.sentBytes]; exact Int.natCast_nonneg _)
  obtain ⟨hstep, hover⟩ := hexact.step_taken hL hcommand htwo le_rfl rfl
  have hended := hover.pc
  rw [if_pos List.drop_length] at hended
  have hzero : (TimeClient.start prm errno command recvBuf).recvBytes = 0 :=
    (hasSent_early ⟨.sending, command, .start prm.allowed_command_len errno, recvBuf, 0, []⟩
      rfl).1
  refine ⟨hsending, ?_, ?_, _, awaiting_hasSent hzero hended, ?_⟩
  · rw [hsender]
    exact Int.ofNat_inj.mp (hlen.trans (sub_zero _))
  · rw [hbuf]
    exact hcommand
  · rw [TimeClient.step_send (iff_of_true hsending (hsender ▸ hpc)), hsender, hbuf]
    exact congrArg (Option.map _) hstep

/-- What is on its way to a client that awaits it, all at once. -/
theorem client_receives (prm : Params) (h : Awaiting client) (data : List Byte)
    (htwo : 2 ≤ data.length) (hlt : data.length < bufSize) :
    ∃ client', TimeClient.step prm client (.recv (.chunk data)) = some client' ∧
      client'.pc = .receiving ∧ client'.recvBytes = BitVec.ofNat 32 data.length ∧
      client'.recvBuf.load 0 data.length = data := by
  have hstep := TimeClient.step_chunk prm data (k := 0) h.pc h.recvBytes (by omega)
  rw [Client.recv_more (k := 0) h.recvBytes htwo hlt.le, Nat.zero_add,
    Client.receives_of_lt rfl hlt] at hstep
  refine ⟨_, hstep, rfl, rfl, ?_⟩
  show (client.recvBuf.store 0 data).load 0 data.length = data
  exact Memory.load_store

/-- The end of the connection after that, and what is printed. -/
theorem client_ends (prm : Params) (hpc : client.pc = .receiving) {data : List Byte}
    (hbytes : client.recvBytes = BitVec.ofNat 32 data.length) (hlt : data.length < bufSize)
    (hload : client.recvBuf.load 0 data.length = data) (hzero : 0 ∉ data) :
    ∃ client', TimeClient.step prm client (.recv (.chunk [])) = some client' ∧
      client'.pc = .closing ∧ Memory.cString bufSize client'.recvBuf = data := by
  have hstep := TimeClient.step_closed prm hpc
  rw [Client.ends_of_lt (s := { client with recvBuf := client.recvBuf.store 0 [] }) hbytes hlt]
    at hstep
  refine ⟨_, hstep, rfl, Memory.cString_eq hlt ?_ Memory.store_self hzero⟩
  have hsame : client.recvBuf.store 0 [] = client.recvBuf :=
    funext fun i => Memory.store_of_le (Nat.zero_le i)
  show Memory.load (Memory.store (client.recvBuf.store 0 []) data.length [0]) 0 data.length = data
  rw [hsame, Memory.load_store_end, hload]

/-! ### The handler -/

/-- The handler sends the time. -/
theorem handler_sends (h : Answered prm prm.SERVER_COMMAND s) :
    s.sendLen.toNat = 25 ∧ s.sendBuf.load 0 25 = prm.ctime ∧
      ∃ s', TimeServer.step prm s (.send (.taken 25)) = some s' ∧ s'.pc = .returned := by
  have hreply : prm.reply prm.SERVER_COMMAND = prm.ctime := if_pos rfl
  obtain ⟨hload, hlen, s', hstep, hpc, -⟩ := h.send_reply
  rw [hreply, prm.length_ctime] at hload hlen hstep
  exact ⟨hlen, hload, s', hstep, hpc⟩

/-! ### The stages of a connection -/

/-- The command is still to be sent, or on its way. -/
inductive Asks (prm : Params) (c : Connection) : ℕ → Prop
  | starting : (TimeClient.client prm).init c.client → c.request = [] → Asks prm c 1
  | sent : Awaiting c.client → c.request = prm.SERVER_COMMAND → Asks prm c 0

/-- The reply is on its way, or in the buffer of the client. -/
inductive Hears (prm : Params) (c : Connection) : ℕ → Prop
  | flying : Awaiting c.client → c.reply = prm.ctime → Hears prm c 1
  | received : c.client.pc = .receiving →
      c.client.recvBytes = BitVec.ofNat 32 prm.ctime.length →
      c.client.recvBuf.load 0 prm.ctime.length = prm.ctime → c.reply = [] → Hears prm c 0

/-- Where a connection is; the number says how many calls are left on it. -/
inductive Stage (prm : Params) (main : Main n) (i : Fin n) (c : Connection) : ℕ → Prop
  | queued (k : ℕ) : Asks prm c k → c.reply = [] → c.closed = false → c.queued = true →
      (∀ s, main ≠ .handling i s) → Stage prm main i c (7 + k)
  | receiving (k : ℕ) (s : Handler) : Asks prm c k → c.reply = [] → c.closed = false →
      c.queued = false → main = .handling i s → s.pc = .receiving → s.recvBytes = 0 →
      Stage prm main i c (6 + k)
  | sending (s : Handler) : Awaiting c.client → c.reply = [] → c.closed = false →
      c.queued = false → main = .handling i s → Answered prm prm.SERVER_COMMAND s →
      Stage prm main i c 5
  | returned (k : ℕ) (s : Handler) : Hears prm c k → c.closed = false → c.queued = false →
      main = .handling i s → s.pc = .returned → Stage prm main i c (3 + k)
  | closed (k : ℕ) : Hears prm c k → c.closed = true → c.queued = false →
      (∀ s, main ≠ .handling i s) → Stage prm main i c (2 + k)
  | closing : c.client.pc = .closing → Memory.cString bufSize c.client.recvBuf = prm.ctime →
      c.closed = true → c.queued = false → (∀ s, main ≠ .handling i s) → Stage prm main i c 1
  | exited : c.client.pc = .exited → c.client.printed = prm.ctime → c.closed = true →
      c.queued = false → (∀ s, main ≠ .handling i s) → Stage prm main i c 0

section Stages

variable {ev : TimeClient.Event} {main main' : Main n}

theorem arrives_whole {data : List Byte} {hangup : Bool} (hdata : data ≠ []) :
    arrives data hangup (.chunk data) = some [] := by
  match data with
  | [] => exact absurd rfl hdata
  | b :: data =>
    rw [arrives, if_pos List.prefix_rfl, ← List.length_cons, List.drop_length]

/-- A client in `recv` makes no other call. -/
theorem recv_of_receiving {hangup : Bool} (hpc : c.client.pc = .receiving)
    (hwhole : WholeCall prm c ev) (hstep : c.clientStep prm hangup ev = some c') :
    ev = .recv (.chunk c.reply) := by
  obtain ⟨client, hclient, -⟩ := Option.bind_eq_some_iff.mp hstep
  cases ev with
  | recv r => exact congrArg TimeClient.Event.recv hwhole
  | send r | close ok =>
    simp only [TimeClient.step, hpc] at hclient
    cases hclient

theorem Waits.of_awaiting (h : Awaiting c.client) (hreply : c.reply = [])
    (hclosed : c.closed = false) : Waits c := ⟨h.pc, hreply, hclosed⟩

theorem Asks.clientStep (htwo : 2 ≤ prm.SERVER_COMMAND.length) (h : Asks prm c k)
    (hreply : c.reply = []) (hclosed : c.closed = false) (hwhole : WholeCall prm c ev)
    (hstep : c.clientStep prm c.closed ev = some c') :
    k = 1 ∧ Asks prm c' 0 ∧ c'.reply = [] := by
  cases h with
  | sent hawaiting _ =>
    rw [hclosed, (Waits.of_awaiting hawaiting hreply hclosed).clientStep] at hstep
    cases hstep
  | starting hinit hrequest =>
    obtain ⟨hpc, hlen, hload, client, hawaiting, hclient⟩ := client_sends htwo hinit
    cases ev with
    | recv r | close ok =>
      obtain ⟨client', hclient', -⟩ := Option.bind_eq_some_iff.mp hstep
      simp only [TimeClient.step, hpc] at hclient'
      cases hclient'
    | send r =>
      have hr : r = .taken prm.SERVER_COMMAND.length := by
        rw [← hlen]
        exact hwhole
      subst hr
      rw [Connection.clientStep_send hclient rfl] at hstep
      obtain rfl := Option.some.inj hstep
      refine ⟨rfl, .sent hawaiting ?_, hreply⟩
      show c.request ++ c.client.command.load 0 prm.SERVER_COMMAND.length = prm.SERVER_COMMAND
      rw [hrequest, hload, List.nil_append]

theorem Hears.clientStep (h : Hears prm c k) (hwhole : WholeCall prm c ev)
    (hstep : c.clientStep prm c.closed ev = some c') :
    k = 1 ∧ Hears prm c' 0 ∨ k = 0 ∧ c.closed = true ∧ c'.client.pc = .closing ∧
      Memory.cString bufSize c'.client.recvBuf = prm.ctime := by
  have hlen := prm.length_ctime
  have hlt : prm.ctime.length < bufSize := by
    rw [hlen]
    decide
  -- first the reply arrives, then the end of the stream
  cases h with
  | flying hawaiting hreply =>
    have hne : c.reply ≠ [] := by
      rw [hreply]
      exact List.length_pos_iff.mp (by omega)
    obtain rfl := recv_of_receiving hawaiting.pc hwhole hstep
    obtain ⟨client, hclient, hpc, hbytes, hload⟩ :=
      client_receives prm hawaiting prm.ctime (by omega) hlt
    rw [Connection.clientStep_recv (hreply.symm ▸ hclient) (arrives_whole hne)] at hstep
    obtain rfl := Option.some.inj hstep
    exact .inl ⟨rfl, .received hpc hbytes hload rfl⟩
  | received hpc hbytes hload hreply =>
    obtain rfl := recv_of_receiving hpc hwhole hstep
    cases hclosed : c.closed with
    | false =>
      rw [hclosed, Waits.clientStep ⟨hpc, hreply, hclosed⟩] at hstep
      cases hstep
    | true =>
      obtain ⟨client, hclient, hclosing, htext⟩ :=
        client_ends prm hpc hbytes hlt hload prm.zero_notMem_ctime
      rw [hclosed, hreply, Connection.clientStep_recv hclient (arrives_end hreply)] at hstep
      obtain rfl := Option.some.inj hstep
      exact .inr ⟨rfl, rfl, hclosing, htext⟩

/-- A call of the client brings its connection on by one stage. -/
theorem Stage.clientStep (htwo : 2 ≤ prm.SERVER_COMMAND.length) (h : Stage prm main i c k)
    (hwhole : WholeCall prm c ev) (hstep : c.clientStep prm c.closed ev = some c') :
    ∃ k', k = k' + 1 ∧ Stage prm main i c' k' := by
  obtain ⟨hqueued', hclosed'⟩ := clientStep_frame hstep
  -- a client that has sent its command waits until the server has done its part
  cases h with
  | queued k hasks hreply hclosed hqueued hmain =>
    obtain ⟨rfl, hsent, hreply'⟩ := hasks.clientStep htwo hreply hclosed hwhole hstep
    exact ⟨7, rfl, .queued 0 hsent hreply' (hclosed'.trans hclosed) (hqueued'.trans hqueued) hmain⟩
  | receiving k s hasks hreply hclosed hqueued hmain hpc hbytes =>
    obtain ⟨rfl, hsent, hreply'⟩ := hasks.clientStep htwo hreply hclosed hwhole hstep
    exact ⟨6, rfl, .receiving 0 s hsent hreply' (hclosed'.trans hclosed) (hqueued'.trans hqueued)
      hmain hpc hbytes⟩
  | sending s hawaiting hreply hclosed hqueued hmain hanswered =>
    rw [hclosed, (Waits.of_awaiting hawaiting hreply hclosed).clientStep] at hstep
    cases hstep
  | returned k s hhears hclosed hqueued hmain hpc =>
    rcases hhears.clientStep hwhole hstep with ⟨rfl, hheard⟩ | ⟨-, hover, -⟩
    · exact ⟨3, rfl, .returned 0 s hheard (hclosed'.trans hclosed) (hqueued'.trans hqueued) hmain
        hpc⟩
    · rw [hclosed] at hover
      cases hover
  | closed k hhears hclosed hqueued hmain =>
    rcases hhears.clientStep hwhole hstep with ⟨rfl, hheard⟩ | ⟨rfl, -, hclosing, htext⟩
    · exact ⟨2, rfl, .closed 0 hheard (hclosed'.trans hclosed) (hqueued'.trans hqueued) hmain⟩
    · exact ⟨1, rfl, .closing hclosing htext (hclosed'.trans hclosed) (hqueued'.trans hqueued)
        hmain⟩
  | closing hpc htext hclosed hqueued hmain =>
    obtain ⟨client, hclient, hc⟩ := Option.bind_eq_some_iff.mp hstep
    cases ev with
    | send r | recv r =>
      simp only [TimeClient.step, hpc] at hclient
      cases hclient
    | close ok =>
      obtain rfl : ok = true := hwhole
      simp only [TimeClient.step, hpc] at hclient
      obtain rfl := Option.some.inj hclient
      obtain rfl := Option.some.inj hc
      exact ⟨0, rfl, .exited rfl htext hclosed hqueued hmain⟩
  | exited hpc _ _ _ _ =>
    rw [Ended.clientStep (.inl hpc)] at hstep
    cases hstep

theorem Awaiting.gone (h : Awaiting c.client) : c.gone = false := by
  simp [Connection.gone, h.pc]

/-- A call of the handler does the same. -/
theorem Stage.handlerStep (htwo : 2 ≤ prm.SERVER_COMMAND.length) {ev : TimeServer.Event}
    (h : Stage prm (.handling i s) i c k) (hrecv : ∀ r, ev = .recv r → r = .chunk c.request)
    (hsend : ∀ r, ev = .send r → r = .taken s.sendLen.toNat)
    (hs : TimeServer.step prm s ev = some s') (hc : c.handlerStep s ev = some c') :
    s'.pc ≠ .failed ∧ ∃ k', k = k' + 1 ∧ Stage prm (.handling i s') i c' k' := by
  cases h with
  | queued _ _ _ _ _ hmain | closed _ _ _ _ hmain | closing _ _ _ _ hmain
  | exited _ _ _ _ hmain => exact absurd rfl (hmain s)
  | receiving k t hasks hreply hclosed hqueued ht hpc hbytes =>
    cases ht
    rcases handler_step_cases hs with ⟨r, rfl, -, -, rfl⟩ | ⟨r, rfl, hother, -⟩
    · obtain rfl := hrecv r rfl
      obtain ⟨bytes, hbytes', rfl⟩ := Option.map_eq_some_iff.mp hc
      -- what has not been sent cannot be received
      cases hasks with
      | starting hinit hrequest =>
        have hsending := (client_sends htwo hinit).1
        have hgone : c.gone = false := by simp [Connection.gone, hsending]
        rw [hrequest, hgone] at hbytes'
        exact (arrives_nil hbytes').elim
      | sent hawaiting hrequest =>
        rw [hrequest] at hbytes' ⊢
        have hanswered : Answered prm prm.SERVER_COMMAND
            (s.recv prm (.chunk prm.SERVER_COMMAND)) := TimeServer.recv_whole rfl htwo hbytes
        refine ⟨fun hfailed => ?_, 5, rfl, .sending _ hawaiting hreply hclosed hqueued rfl
          hanswered⟩
        rw [hanswered.pc] at hfailed
        cases hfailed
    · rw [hpc] at hother
      cases hother
  | sending t hawaiting hreply hclosed hqueued ht hanswered =>
    cases ht
    rcases handler_step_cases hs with ⟨r, rfl, hother, -, -⟩ | ⟨r, rfl, -, -⟩
    · rw [hanswered.pc] at hother
      cases hother
    · obtain ⟨hlen, hload, u, hu, hreturned⟩ := handler_sends hanswered
      obtain rfl := hsend r rfl
      rw [hlen] at hs hc
      obtain rfl := Option.some.inj (hu.symm.trans hs)
      obtain rfl := Option.some.inj hc
      refine ⟨fun hfailed => ?_, 4, rfl, .returned 1 _ (.flying hawaiting ?_) hclosed hqueued rfl
        hreturned⟩
      · rw [hreturned] at hfailed
        cases hfailed
      · show c.reply ++ s.sendBuf.load 0 25 = prm.ctime
        rw [hreply, hload, List.nil_append]
  | returned k t _ _ _ ht hpc =>
    cases ht
    rcases handler_step_cases hs with ⟨r, rfl, hother, -, -⟩ | ⟨r, rfl, hother, -⟩
    all_goals
      rw [hpc] at hother
      cases hother

theorem Stage.accept (h : Stage prm main i c k) (hmain : ∀ s, main ≠ .handling i s)
    (hqueued : c.queued = true) (errno : CInt) (recvBuf sendBuf : Memory Byte) :
    ∃ k', k = k' + 1 ∧ Stage prm (.handling i (TimeServer.start errno recvBuf sendBuf)) i
      { c with queued := false } k' := by
  cases h with
  | queued k hasks hreply hclosed _ _ =>
    have hasks' : Asks prm { c with queued := false } k := by
      cases hasks with
      | starting hinit hrequest => exact .starting hinit hrequest
      | sent hawaiting hrequest => exact .sent hawaiting hrequest
    exact ⟨6 + k, by omega, .receiving k _ hasks' hreply hclosed rfl rfl rfl rfl⟩
  | receiving _ s _ _ _ _ hs _ _ | sending s _ _ _ _ hs _ | returned _ s _ _ _ hs _ =>
    exact absurd hs (hmain s)
  | closed _ _ _ hnot _ | closing _ _ _ hnot _ | exited _ _ _ hnot _ =>
    rw [hqueued] at hnot
    cases hnot

theorem Stage.close (h : Stage prm (.handling i s) i c k) (hpc : s.pc = .returned) :
    ∃ k', k = k' + 1 ∧ Stage prm .accepting i { c with closed := true } k' := by
  cases h with
  | queued _ _ _ _ _ hmain | closed _ _ _ _ hmain | closing _ _ _ _ hmain
  | exited _ _ _ _ hmain => exact absurd rfl (hmain s)
  | receiving _ t _ _ _ _ ht hother _ =>
    cases ht
    rw [hpc] at hother
    cases hother
  | sending t _ _ _ _ ht hanswered =>
    cases ht
    have hother := hanswered.pc
    rw [hpc] at hother
    cases hother
  | returned k t hhears _ hqueued _ _ =>
    have hhears' : Hears prm { c with closed := true } k := by
      cases hhears with
      | flying hawaiting hreply => exact .flying hawaiting hreply
      | received hreceiving hbytes hload hreply =>
        exact .received hreceiving hbytes hload hreply
    exact ⟨2 + k, by omega, .closed k hhears' rfl hqueued nofun⟩

theorem Hears.pc (h : Hears prm c k) : c.client.pc = .receiving := by
  cases h with
  | flying hawaiting _ => exact hawaiting.pc
  | received hpc _ _ _ => exact hpc

/-- Nobody writes to a closed connection. -/
theorem Stage.ne_sending (h : Stage prm main i c k) (hover : c.closed = true) :
    c.client.pc ≠ .sending := by
  intro hpc
  cases h with
  | queued _ _ _ hclosed _ _ | receiving _ _ _ _ hclosed _ _ _ _ | sending _ _ _ hclosed _ _ _
  | returned _ _ _ hclosed _ _ _ =>
    rw [hover] at hclosed
    cases hclosed
  | closed _ hhears _ _ _ =>
    rw [hhears.pc] at hpc
    cases hpc
  | closing hother _ _ _ _ | exited hother _ _ _ _ =>
    rw [hpc] at hother
    cases hother

theorem Stage.gone (h : Stage prm (.handling i s) i c k) (hpc : s.pc = .sending) :
    c.gone = false := by
  cases h with
  | queued _ _ _ _ _ hmain | closed _ _ _ _ hmain | closing _ _ _ _ hmain
  | exited _ _ _ _ hmain => exact absurd rfl (hmain s)
  | sending _ hawaiting _ _ _ _ _ => exact Awaiting.gone hawaiting
  | receiving _ t _ _ _ _ ht hother _ | returned _ t _ _ _ ht hother =>
    cases ht
    rw [hpc] at hother
    cases hother

/-- The stage of a connection that the server is not handling. -/
theorem Stage.of_main (h : Stage prm main i c k) (hmain : ∀ s, main ≠ .handling i s)
    (hmain' : ∀ s, main' ≠ .handling i s) : Stage prm main' i c k := by
  cases h with
  | queued k hasks hreply hclosed hqueued _ => exact .queued k hasks hreply hclosed hqueued hmain'
  | closed k hhears hclosed hqueued _ => exact .closed k hhears hclosed hqueued hmain'
  | closing hpc htext hclosed hqueued _ => exact .closing hpc htext hclosed hqueued hmain'
  | exited hpc htext hclosed hqueued _ => exact .exited hpc htext hclosed hqueued hmain'
  | receiving _ s _ _ _ _ hs _ _ | sending s _ _ _ _ hs _ | returned _ s _ _ _ hs _ =>
    exact absurd hs (hmain s)

end Stages

/-! ### The run -/

/-- The server is there, and the connections are at their stages. -/
structure AtStages (prm : Params) (σ : State n) (f : Fin n → ℕ) : Prop where
  main : σ.main ≠ .failed
  stage : ∀ i, Stage prm σ.main i (σ.conn i) (f i)

/-- One connection has changed. -/
theorem AtStages.update {f : Fin n → ℕ} {main : Main n} (hmain : main ≠ .failed)
    (hi : Stage prm main i c k) (hother : ∀ j, j ≠ i → Stage prm main j (σ.conn j) (f j)) :
    AtStages prm { main := main, conn := update σ.conn i c } (Function.update f i k) := by
  refine ⟨hmain, fun j => ?_⟩
  show Stage prm main j (Function.update σ.conn i c j) (Function.update f i k j)
  by_cases hj : j = i
  · subst hj
    rw [Function.update_self, Function.update_self]
    exact hi
  · rw [Function.update_of_ne hj, Function.update_of_ne hj]
    exact hother j hj

/-- **A whole transfer** brings one connection on by one stage. -/
theorem AtStages.step (htwo : 2 ≤ prm.SERVER_COMMAND.length) {f : Fin n → ℕ} {ev : Event n}
    (hσ : AtStages prm σ f) (hwhole : Whole prm σ ev)
    (h : (service prm n).step σ ev = some σ') :
    ∃ i k, f i = k + 1 ∧ AtStages prm σ' (Function.update f i k) := by
  have hstage := hσ.stage
  -- one connection goes on, and the others see at most that `main` does
  cases step_move h with
  | client i ev c hc =>
    rw [hangup_eq hσ.main] at hc
    obtain ⟨k, hk, hnext⟩ := (hstage i).clientStep htwo hwhole hc
    exact ⟨i, k, hk, .update hσ.main hnext fun j _ => hstage j⟩
  | accept i errno recvBuf sendBuf hmain hqueued =>
    have hidle : ∀ j s, σ.main ≠ .handling j s := by
      intro j s
      rw [hmain]
      exact nofun
    obtain ⟨k, hk, hnext⟩ := (hstage i).accept (hidle i) hqueued errno recvBuf sendBuf
    refine ⟨i, k, hk, .update nofun hnext fun j hj => (hstage j).of_main (hidle j) fun t ht => ?_⟩
    cases ht
    exact hj rfl
  | handler i s s' ev c hmain hs hc =>
    have hi := hstage i
    rw [hmain] at hi
    obtain ⟨hfailed, k, hk, hnext⟩ := hi.handlerStep htwo
      (fun r hr => by subst hr; exact hwhole i s hmain)
      (fun r hr => by subst hr; exact hwhole i s hmain) hs hc
    have hmain' : handled i s' = .handling i s' := if_neg hfailed
    rw [hmain']
    refine ⟨i, k, hk, .update nofun hnext fun j hj => (hstage j).of_main (fun t ht => ?_)
      fun t ht => ?_⟩
    · exact hj (main_eq hmain ht).1.symm
    · cases ht
      exact hj rfl
  | close i s ok hmain hpc =>
    obtain rfl : ok = true := hwhole
    have hi := hstage i
    rw [hmain] at hi
    obtain ⟨k, hk, hnext⟩ := hi.close hpc
    exact ⟨i, k, hk, .update nofun hnext fun j hj => (hstage j).of_main
      (fun t ht => hj (main_eq hmain ht).1.symm) nofun⟩
  | sigpipeClient i hpc hover =>
    rw [hangup_eq hσ.main] at hover
    exact absurd hpc ((hstage i).ne_sending hover)
  | sigpipeServer i s hmain hpc hgone =>
    have hi := hstage i
    rw [hmain] at hi
    rw [hi.gone hpc] at hgone
    cases hgone

/-- The client can make its call. -/
theorem exists_whole_client (hmain : σ.main ≠ .failed) (ev : TimeClient.Event)
    (hwhole : WholeCall prm (σ.conn i) ev)
    (h : (σ.conn i).clientStep prm (σ.conn i).closed ev = some c) :
    ∃ ev, Whole prm σ ev ∧ (service prm n).step σ ev ≠ none := by
  refine ⟨.client i ev, hwhole, ?_⟩
  show ((σ.conn i).clientStep prm (σ.hangup i) ev).map _ ≠ none
  rw [hangup_eq hmain, h]
  exact Option.some_ne_none _

theorem exists_whole_handler (hmain : σ.main = .handling i s) (ev : TimeServer.Event)
    (hwhole : Whole prm σ (.handler ev)) (hs : TimeServer.step prm s ev = some s')
    (hc : (σ.conn i).handlerStep s ev = some c) :
    ∃ ev, Whole prm σ ev ∧ (service prm n).step σ ev ≠ none := by
  refine ⟨.handler ev, hwhole, ?_⟩
  show TimeService.step prm σ (.handler ev) ≠ none
  simp only [TimeService.step, hmain, hs, hc]
  exact Option.some_ne_none _

/-- A client that has sent nothing can send the command. -/
theorem exists_whole_command (htwo : 2 ≤ prm.SERVER_COMMAND.length) (hmain : σ.main ≠ .failed)
    (h : (TimeClient.client prm).init (σ.conn i).client) :
    ∃ ev, Whole prm σ ev ∧ (service prm n).step σ ev ≠ none := by
  obtain ⟨-, hlen, -, client, -, hclient⟩ := client_sends htwo h
  exact exists_whole_client hmain (.send (.taken prm.SERVER_COMMAND.length))
    (congrArg Sent.taken hlen.symm) (Connection.clientStep_send hclient rfl)

/-- A client that hears the server can take what has come. -/
theorem Hears.exists_whole (hmain : σ.main ≠ .failed) (h : Hears prm (σ.conn i) k)
    (hclosed : (σ.conn i).closed = true) :
    ∃ ev, Whole prm σ ev ∧ (service prm n).step σ ev ≠ none := by
  have hlen := prm.length_ctime
  have hlt : prm.ctime.length < bufSize := by
    rw [hlen]
    decide
  cases h with
  | flying hawaiting hreply =>
    have hne : (σ.conn i).reply ≠ [] := by
      rw [hreply]
      exact List.length_pos_iff.mp (by omega)
    obtain ⟨client, hclient, -⟩ := client_receives prm hawaiting prm.ctime (by omega) hlt
    exact exists_whole_client hmain (.recv (.chunk (σ.conn i).reply)) rfl
      (Connection.clientStep_recv (hreply.symm ▸ hclient) (arrives_whole hne))
  | received hpc hbytes hload hreply =>
    obtain ⟨client, hclient, -⟩ :=
      client_ends prm hpc hbytes hlt hload prm.zero_notMem_ctime
    have hover : arrives (σ.conn i).reply (σ.conn i).closed (.chunk []) = some [] := by
      rw [hclosed]
      exact arrives_end hreply
    exact exists_whole_client hmain (.recv (.chunk [])) (congrArg Received.chunk hreply.symm)
      (Connection.clientStep_recv hclient hover)

/-- The handler or its client is next. -/
theorem Stage.exists_whole (htwo : 2 ≤ prm.SERVER_COMMAND.length) (hmain : σ.main = .handling i s)
    (h : Stage prm (.handling i s) i (σ.conn i) k) :
    ∃ ev, Whole prm σ ev ∧ (service prm n).step σ ev ≠ none := by
  have hthere : σ.main ≠ .failed := by
    rw [hmain]
    exact nofun
  -- the handler waits for the command only, and then it is for the client to send it
  cases h with
  | queued _ _ _ _ _ hidle | closed _ _ _ _ hidle | closing _ _ _ _ hidle
  | exited _ _ _ _ hidle => exact absurd rfl (hidle s)
  | receiving k t hasks _ _ _ ht hpc hbytes =>
    cases ht
    cases hasks with
    | starting hinit _ => exact exists_whole_command htwo hthere hinit
    | sent _ hrequest =>
      have hcommand := prm.command_le
      have hfit : prm.SERVER_COMMAND.length ≤ s.recvLen.toNat := by
        rw [TimeServer.toNat_recvLen (n := 0) hbytes (Nat.zero_le _), bufSize]
        omega
      have hstep : TimeServer.step prm s (.recv (.chunk prm.SERVER_COMMAND))
          = some (s.recv prm (.chunk prm.SERVER_COMMAND)) := by
        simp only [TimeServer.step, hpc]
        exact if_pos hfit
      have hwhole : arrives (σ.conn i).request (σ.conn i).gone (.chunk prm.SERVER_COMMAND)
          = some [] := by
        rw [hrequest]
        exact arrives_whole (List.length_pos_iff.mp prm.command_pos)
      refine exists_whole_handler hmain (.recv (.chunk prm.SERVER_COMMAND))
        (fun j t ht => ?_) hstep (Connection.handlerStep_recv hwhole)
      obtain ⟨rfl, -⟩ := main_eq hmain ht
      rw [hrequest]
  | sending t _ _ _ _ ht hanswered =>
    cases ht
    obtain ⟨hlen, -, u, hu, -⟩ := handler_sends hanswered
    refine exists_whole_handler hmain (.send (.taken 25)) (fun j t ht => ?_) hu rfl
    obtain ⟨-, rfl⟩ := main_eq hmain ht
    rw [hlen]
  | returned k t _ _ _ ht hpc =>
    cases ht
    refine ⟨.close true, rfl, ?_⟩
    show TimeService.step prm σ (.close true) ≠ none
    simp only [TimeService.step, hmain, if_pos hpc]
    exact Option.some_ne_none _

theorem AtStages.exists_whole (htwo : 2 ≤ prm.SERVER_COMMAND.length) {f : Fin n → ℕ}
    (hσ : AtStages prm σ f) (hi : f i ≠ 0) :
    ∃ ev, Whole prm σ ev ∧ (service prm n).step σ ev ≠ none := by
  cases hmain : σ.main with
  | failed => exact absurd hmain hσ.main
  | handling j s =>
    have hj := hσ.stage j
    rw [hmain] at hj
    exact hj.exists_whole htwo hmain
  | accepting =>
    have hstage := hσ.stage i
    -- nobody is served: the connection is in the queue, or its client goes on alone
    generalize f i = k at hi hstage
    cases hstage with
    | queued _ _ _ _ hqueued _ =>
      refine ⟨.accept i 0 (fun _ => 0) fun _ => 0, trivial, ?_⟩
      show TimeService.step prm σ (.accept i 0 (fun _ => 0) fun _ => 0) ≠ none
      simp only [TimeService.step, hmain, if_pos hqueued]
      exact Option.some_ne_none _
    | closed _ hhears hclosed _ _ => exact hhears.exists_whole hσ.main hclosed
    | closing hpc _ _ _ _ =>
      obtain ⟨client, hclient⟩ :
          ∃ client, TimeClient.step prm (σ.conn i).client (.close true) = some client := by
        simp only [TimeClient.step, hpc]
        exact ⟨_, rfl⟩
      refine exists_whole_client (i := i) (c := { σ.conn i with client := client }) hσ.main
        (.close true) rfl ?_
      rw [Connection.clientStep, hclient]
      rfl
    | exited _ _ _ _ _ => exact absurd rfl hi
    | receiving _ s _ _ _ _ hs _ _ | sending s _ _ _ _ hs _ | returned _ s _ _ _ hs _ =>
      rw [hmain] at hs
      cases hs

/-- The stages before the first call. -/
theorem atStages_init (h : (service prm n).init σ) : AtStages prm σ fun _ => 8 := by
  obtain ⟨hmain, hfresh⟩ := h
  refine ⟨by rw [hmain]; exact nofun, fun i => ?_⟩
  have hc := hfresh i
  exact .queued 1 (.starting hc.client hc.request) hc.reply hc.closed hc.queued fun s hs => by
    rw [hmain] at hs
    cases hs

/-- A run of whole transfers makes each connection go through its stages. -/
theorem AtStages.run (htwo : 2 ≤ prm.SERVER_COMMAND.length) {f : Fin n → ℕ} {evs : List (Event n)}
    (hσ : AtStages prm σ f) (hrun : (service prm n).run σ evs = some σ')
    (hwhole : (service prm n).Along (Whole prm) σ evs) :
    ∃ g, AtStages prm σ' g ∧ evs.length + tally id g = tally id f := by
  induction evs generalizing σ f with
  | nil =>
    obtain rfl : σ = σ' := Option.some.inj hrun
    exact ⟨f, hσ, Nat.zero_add _⟩
  | cons ev evs ih =>
    obtain ⟨u, hu, hrest⟩ := Machine.run_cons_eq_some.mp hrun
    obtain ⟨hcall, halong⟩ := (Machine.along_cons hu).mp hwhole
    obtain ⟨i, k, hk, hnext⟩ := hσ.step htwo hcall hu
    obtain ⟨g, hg, hsum⟩ := ih hnext hrest halong
    have hupdate := tally_update id f i k
    refine ⟨g, hg, ?_⟩
    simp only [id_eq] at hupdate
    rw [List.length_cons]
    omega

/-- From all stages a run of whole transfers leads to the end. -/
theorem AtStages.exists_run (htwo : 2 ≤ prm.SERVER_COMMAND.length) {f : Fin n → ℕ}
    (hσ : AtStages prm σ f) : ∃ evs σ', evs.length = tally id f ∧
      (service prm n).run σ evs = some σ' ∧ (service prm n).Along (Whole prm) σ evs := by
  induction htotal : tally id f generalizing σ f with
  | zero => exact ⟨[], σ, rfl, rfl, trivial⟩
  | succ k ih =>
    have hsome : tally id f ≠ 0 := by omega
    obtain ⟨i, hi⟩ := exists_ne_zero_of_tally hsome
    obtain ⟨ev, hcall, hstep⟩ := hσ.exists_whole htwo hi
    obtain ⟨u, hu⟩ := Option.ne_none_iff_exists'.mp hstep
    obtain ⟨j, l, hl, hnext⟩ := hσ.step htwo hcall hu
    have hupdate := tally_update id f j l
    simp only [id_eq] at hupdate
    obtain ⟨evs, σ', hlen, hrun, halong⟩ := ih hnext (by omega)
    exact ⟨ev :: evs, σ', by rw [List.length_cons, hlen], (Machine.run_cons hu).trans hrun,
      (Machine.along_cons hu).mpr ⟨hcall, halong⟩⟩

/-- **The service answers**: when each call moves all there is to move, the service takes at most
eight calls for each client and can go on as long as there have been fewer; then each client has
printed the time, and the server is in `accept`. -/
theorem answers (prm : Params) (htwo : 2 ≤ prm.SERVER_COMMAND.length) (n : ℕ) (σ σ' : State n)
    (evs : List (Event n)) (hσ : (service prm n).init σ)
    (hrun : (service prm n).run σ evs = some σ')
    (hwhole : (service prm n).Along (Whole prm) σ evs) :
    evs.length ≤ 8 * n ∧
      (evs.length < 8 * n → ∃ ev, Whole prm σ' ev ∧ (service prm n).step σ' ev ≠ none) ∧
      (evs.length = 8 * n → σ'.main = .accepting ∧
        ∀ i, (σ'.conn i).client.pc = .exited ∧ (σ'.conn i).client.printed = prm.ctime) := by
  -- every call takes one of the eight stages of a connection
  obtain ⟨g, hg, hsum⟩ := (atStages_init hσ).run htwo hrun hwhole
  have hall : tally id (fun _ : Fin n => 8) = 8 * n := by
    rw [tally_const, Fintype.card_fin, smul_eq_mul, Nat.mul_comm]
    rfl
  rw [hall] at hsum
  refine ⟨by omega, fun hlt => ?_, fun heq => ?_⟩
  · have hsome : tally id g ≠ 0 := by omega
    obtain ⟨i, hi⟩ := exists_ne_zero_of_tally hsome
    exact hg.exists_whole htwo hi
  · have htotal : tally id g = 0 := by omega
    have hzero : ∀ i, g i = 0 := tally_eq_zero.mp htotal
    have hend : ∀ i, (σ'.conn i).client.pc = .exited ∧
        (σ'.conn i).client.printed = prm.ctime ∧ ∀ s, σ'.main ≠ .handling i s := by
      intro i
      have hstage := hg.stage i
      rw [hzero i] at hstage
      generalize hk : 0 = k at hstage
      cases hstage with
      | exited hpc htext _ _ hmain => exact ⟨hpc, htext, hmain⟩
      | queued | receiving | sending | returned | closed | closing => omega
    refine ⟨?_, fun i => ⟨(hend i).1, (hend i).2.1⟩⟩
    cases hmain : σ'.main with
    | accepting => rfl
    | handling i s => exact absurd hmain ((hend i).2.2 s)
    | failed => exact absurd hmain hg.main

/-- Three clients are served. -/
theorem answers_three : ∃ evs σ', evs.length = 8 * 3 ∧
    (service time 3).run (established time 3) evs = some σ' ∧ σ'.main = .accepting ∧
      ∀ i, (σ'.conn i).client.pc = .exited ∧ (σ'.conn i).client.printed = time.ctime := by
  obtain ⟨evs, σ', hlen, hrun, hwhole⟩ :=
    (atStages_init (n := 3) established_init).exists_run
      (by decide : 2 ≤ time.SERVER_COMMAND.length)
  exact ⟨evs, σ', hlen, hrun,
    (answers time (by decide) 3 _ σ' evs established_init hrun hwhole).2.2 hlen⟩

end TimeService
