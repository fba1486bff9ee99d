/-
Where the TIME service of Lab07/03 comes to a stop.

* `stuck_iff` — no process can go on exactly if all clients have ended, with the server ended too
  or in `accept` with an empty queue, or if the handler and its client wait for each other, and
  with them all who are in the queue;
* `starves` — a server that has received a part of a command, and not all at once, never comes
  back to `accept`, and no client in the queue is sent a byte.
-/
import SistemiDiCalcolo.TimeService

open AccessLog (Byte)
open Function (update)
open TimeServer (Params Handler Received Sent bufSize time)
open TimeClient (Client)

namespace TimeService

variable {n : ℕ} {prm : Params} {σ σ' : State n} {i j : Fin n} {c c' : Connection} {s s' : Handler}
  {ev : TimeClient.Event}

/-- The client makes no more calls. -/
def Ended (c : Client) : Prop := c.pc = .exited ∨ c.pc = .failed ∨ c.pc = .undefined

/-- The client is in `recv`, and nothing has been sent to it. -/
structure Waits (c : Connection) : Prop where
  pc : c.client.pc = .receiving
  reply : c.reply = []
  closed : c.closed = false

/-! ### What is possible -/

theorem ofNat_one_le {len : SizeT} (h : 0 < len) : 1 ≤ len.toNat := h

/-- A `send` can take a byte. -/
theorem exists_send (h : ClientTested prm c.client) (hpc : c.client.pc = .sending) (hangup : Bool) :
    c.clientStep prm hangup (.send (.taken 1)) ≠ none := by
  obtain ⟨hsender, hlen⟩ := h.sending hpc
  have hstep : TimeClient.step prm c.client (.send (.taken 1))
      = some (c.client.hasSent (c.client.sender.send c.client.command prm.allowed_command_len
          (.taken 1))) := by
    simp only [TimeClient.step, hpc, TimeServer.Sender.step, hsender]
    rw [if_neg fun hover => hover.1 rfl, if_pos ⟨Nat.one_pos, ofNat_one_le hlen⟩]
    rfl
  rw [Connection.clientStep_send hstep rfl]
  exact Option.some_ne_none _

/-- A client in `recv` takes a byte, or is told that no more will come. -/
theorem exists_recv (h : ClientTested prm c.client) (hpc : c.client.pc = .receiving) {hangup : Bool}
    (hbytes : c.reply ≠ [] ∨ hangup = true) : ∃ r, c.clientStep prm hangup (.recv r) ≠ none := by
  cases hreply : c.reply with
  | nil =>
    obtain rfl : hangup = true := hbytes.resolve_left fun hne => hne hreply
    refine ⟨.chunk [], ?_⟩
    rw [Connection.clientStep_recv (TimeClient.step_closed prm hpc) (arrives_end hreply)]
    exact Option.some_ne_none _
  | cons b bytes =>
    have hstep : TimeClient.step prm c.client (.recv (.chunk [b]))
        = some (c.client.recv (.chunk [b])) := by
      simp only [TimeClient.step, hpc]
      exact if_pos (ofNat_one_le (h.receiving hpc))
    refine ⟨.chunk [b], ?_⟩
    rw [Connection.clientStep_recv hstep (arrives_cons hreply)]
    exact Option.some_ne_none _

theorem exists_close (hpc : c.client.pc = .closing) (hangup : Bool) :
    c.clientStep prm hangup (.close false) ≠ none := by
  rw [Connection.clientStep]
  simp only [TimeClient.step, hpc]
  exact Option.some_ne_none _

/-- A client that makes no call in a state has ended or waits. -/
theorem ended_or_waits (h : ClientTested prm c.client) {hangup : Bool}
    (hstuck : ∀ ev, c.clientStep prm hangup ev = none) :
    Ended c.client ∨ c.client.pc = .receiving ∧ c.reply = [] ∧ hangup = false := by
  cases hpc : c.client.pc with
  | sending => exact absurd (hstuck _) (exists_send h hpc hangup)
  | closing => exact absurd (hstuck _) (exists_close hpc hangup)
  | exited => exact .inl (.inl hpc)
  | failed => exact .inl (.inr (.inl hpc))
  | undefined => exact .inl (.inr (.inr hpc))
  | receiving =>
    by_cases hbytes : c.reply ≠ [] ∨ hangup = true
    · obtain ⟨r, hr⟩ := exists_recv h hpc hbytes
      exact absurd (hstuck _) hr
    · obtain ⟨hreply, hover⟩ := not_or.mp hbytes
      exact .inr ⟨rfl, not_not.mp hreply, Bool.not_eq_true _ ▸ hover⟩

/-- The same for the handler. -/
theorem handler_waits (h : HandlerTested s) (hfailed : s.pc ≠ .failed)
    (hmain : σ.main = .handling i s) (hstuck : (service prm n).Stuck σ) :
    s.pc = .receiving ∧ (σ.conn i).request = [] ∧ (σ.conn i).gone = false := by
  have hcall : ∀ ev s', TimeServer.step prm s ev = some s' →
      (σ.conn i).handlerStep s ev = none := by
    intro ev s' hs
    have hnone : step prm σ (.handler ev) = none := hstuck (.handler ev)
    simp only [step, hmain, hs] at hnone
    exact Option.map_eq_none_iff.mp hnone
  cases hpc : s.pc with
  | failed => exact absurd hpc hfailed
  | returned =>
    have hnone : step prm σ (.close true) = none := hstuck (.close true)
    simp only [step, hmain, if_pos hpc] at hnone
    cases hnone
  | sending =>
    have hstep : TimeServer.step prm s (.send (.taken 1)) = some (s.send (.taken 1)) := by
      simp only [TimeServer.step, hpc]
      exact if_pos ⟨Nat.one_pos, ofNat_one_le (h.sending hpc)⟩
    have hnone := hcall _ _ hstep
    cases hnone
  | receiving =>
    -- one byte, or the end of the request
    have hlen := ofNat_one_le (h.receiving hpc)
    cases hrequest : (σ.conn i).request with
    | cons b bytes =>
      have hstep : TimeServer.step prm s (.recv (.chunk [b])) = some (s.recv prm (.chunk [b])) := by
        simp only [TimeServer.step, hpc]
        exact if_pos hlen
      have hnone := hcall _ _ hstep
      rw [Connection.handlerStep_recv (arrives_cons hrequest)] at hnone
      cases hnone
    | nil =>
      refine ⟨rfl, rfl, ?_⟩
      cases hgone : (σ.conn i).gone with
      | false => rfl
      | true =>
        have hstep : TimeServer.step prm s (.recv (.chunk [])) = some (s.recv prm (.chunk [])) := by
          simp only [TimeServer.step, hpc]
          exact if_pos (Nat.zero_le _)
        have hnone := hcall _ _ hstep
        rw [Connection.handlerStep_recv (by rw [hgone]; exact arrives_end hrequest)] at hnone
        cases hnone

theorem client_stuck (hstuck : (service prm n).Stuck σ) (i : Fin n) (ev : TimeClient.Event) :
    (σ.conn i).clientStep prm (σ.hangup i) ev = none := by
  have hnone : step prm σ (.client i ev) = none := hstuck (.client i ev)
  exact Option.map_eq_none_iff.mp hnone

/-! ### What is not -/

theorem Ended.clientStep {hangup : Bool} (h : Ended c.client) :
    c.clientStep prm hangup ev = none := by
  by_contra hsome
  obtain ⟨c', hc'⟩ := Option.ne_none_iff_exists'.mp hsome
  obtain ⟨client, hclient, -⟩ := Option.bind_eq_some_iff.mp hc'
  rcases client_step_cases hclient with ⟨_, _, -, hpc, -⟩ | ⟨_, -, hpc, -⟩ | ⟨_, -, hpc, -⟩
  all_goals
    rw [Ended, hpc] at h
    rcases h with h | h | h <;> cases h

theorem Waits.clientStep (h : Waits c) : c.clientStep prm false ev = none := by
  by_contra hsome
  obtain ⟨c', hc'⟩ := Option.ne_none_iff_exists'.mp hsome
  obtain ⟨client, hclient, hstep⟩ := Option.bind_eq_some_iff.mp hc'
  have hpc := h.pc
  rcases client_step_cases hclient with ⟨_, _, -, hother, -⟩ | ⟨_, rfl, -, -⟩ | ⟨_, -, hother, -⟩
  · rw [hother] at hpc
    cases hpc
  · obtain ⟨bytes, hbytes, -⟩ := Option.map_eq_some_iff.mp hstep
    rw [h.reply] at hbytes
    exact arrives_nil hbytes
  · rw [hother] at hpc
    cases hpc

/-- The handler and the client wait for each other, and the others have ended or wait in the
queue. -/
structure Deadlock (σ : State n) (i : Fin n) (s : Handler) : Prop where
  main : σ.main = .handling i s
  pc : s.pc = .receiving
  request : (σ.conn i).request = []
  waits : Waits (σ.conn i)
  others : ∀ j, j ≠ i → Ended (σ.conn j).client ∨ Waits (σ.conn j) ∧ (σ.conn j).queued = true

theorem Waits.gone (h : Waits c) : c.gone = false := by
  simp [Connection.gone, h.pc]

/-- In a deadlock every process waits for another one. -/
theorem Deadlock.stuck (h : Deadlock σ i s) : (service prm n).Stuck σ := by
  have hthere : σ.main ≠ .failed := by
    rw [h.main]
    exact nofun
  have hall : ∀ j, Ended (σ.conn j).client ∨ Waits (σ.conn j) := by
    intro j
    by_cases hj : j = i
    · exact .inr (hj ▸ h.waits)
    · exact (h.others j hj).imp_right And.left
  intro ev
  by_contra hsome
  obtain ⟨σ', hσ'⟩ := Option.ne_none_iff_exists'.mp hsome
  cases step_move hσ' with
  | client j ev c hc =>
    rcases hall j with hended | hwaits
    · rw [hended.clientStep] at hc
      cases hc
    · rw [hangup_eq hthere, hwaits.closed, hwaits.clientStep] at hc
      cases hc
  | accept j errno recvBuf sendBuf hmain _ =>
    rw [h.main] at hmain
    cases hmain
  | handler j t t' ev c hmain ht hc =>
    obtain ⟨rfl, rfl⟩ := main_eq h.main hmain
    rcases handler_step_cases ht with ⟨r, rfl, -, -, -⟩ | ⟨r, rfl, hpc, -⟩
    · obtain ⟨bytes, hbytes, -⟩ := Option.map_eq_some_iff.mp hc
      rw [h.request, h.waits.gone] at hbytes
      exact arrives_nil hbytes
    · rw [h.pc] at hpc
      cases hpc
  | close j t ok hmain hpc =>
    obtain ⟨rfl, rfl⟩ := main_eq h.main hmain
    rw [h.pc] at hpc
    cases hpc
  | sigpipeClient j hpc _ =>
    rcases hall j with hended | hwaits
    · rw [Ended, hpc] at hended
      rcases hended with hended | hended | hended <;> cases hended
    · have hother := hwaits.pc
      rw [hpc] at hother
      cases hother
  | sigpipeServer j t hmain hpc _ =>
    obtain ⟨rfl, rfl⟩ := main_eq h.main hmain
    rw [h.pc] at hpc
    cases hpc

/-- Without clients the server does nothing, in `accept` with an empty queue or ended. -/
theorem stuck_of_ended (hended : ∀ i, Ended (σ.conn i).client)
    (hmain : σ.main = .failed ∨ σ.main = .accepting ∧ ∀ i, (σ.conn i).queued = false) :
    (service prm n).Stuck σ := by
  have hidle : ∀ i s, σ.main ≠ .handling i s := by
    intro i s
    rcases hmain with hmain | ⟨hmain, -⟩ <;> rw [hmain] <;> exact nofun
  intro ev
  by_contra hsome
  obtain ⟨σ', hσ'⟩ := Option.ne_none_iff_exists'.mp hsome
  cases step_move hσ' with
  | client j ev c hc =>
    rw [(hended j).clientStep] at hc
    cases hc
  | accept j errno recvBuf sendBuf haccepting hqueued =>
    rcases hmain with hmain | ⟨-, hempty⟩
    · rw [hmain] at haccepting
      cases haccepting
    · rw [hempty j] at hqueued
      cases hqueued
  | handler j t t' ev c ht _ _ => exact hidle j t ht
  | close j t ok ht _ => exact hidle j t ht
  | sigpipeClient j hpc _ =>
    have hother := hended j
    rw [Ended, hpc] at hother
    rcases hother with hother | hother | hother <;> cases hother
  | sigpipeServer j t ht _ _ => exact hidle j t ht

/-- A server stuck in `accept` has served all its clients. -/
theorem served_of_stuck (hσ : Sound prm σ) (hmain : σ.main = .accepting)
    (hstuck : (service prm n).Stuck σ) (i : Fin n) :
    (σ.conn i).queued = false ∧ (σ.conn i).closed = true := by
  cases hσ.phase.resolve_left (by rw [hmain]; exact nofun) i with
  | queued hqueued _ _ _ =>
    have hnone : step prm σ (.accept i 0 (fun _ => 0) fun _ => 0) = none :=
      hstuck (.accept i 0 (fun _ => 0) fun _ => 0)
    simp only [step, hmain, if_pos hqueued] at hnone
    cases hnone
  | receiving s hs _ _ _ _ | replying s hs _ _ _ =>
    rw [hmain] at hs
    cases hs
  | served _ hqueued hclosed => exact ⟨hqueued, hclosed⟩

/-- A handler is stuck with its client. -/
theorem deadlock_of_stuck (hσ : Sound prm σ) (hmain : σ.main = .handling i s)
    (hstuck : (service prm n).Stuck σ) : Deadlock σ i s := by
  have hthere : σ.main ≠ .failed := by
    rw [hmain]
    exact nofun
  have hphase := hσ.phase.resolve_left hthere
  have hclient := fun j => ended_or_waits (hσ.client j) (client_stuck hstuck j)
  obtain ⟨hfailed, hloops⟩ := hσ.handler i s hmain
  obtain ⟨hpc, hrequest, hgone⟩ := handler_waits hloops hfailed hmain hstuck
  refine ⟨hmain, hpc, hrequest, ?_, fun j hj => ?_⟩
  · cases hphase i with
    | queued _ hnot _ _ => exact absurd hmain (hnot s)
    | served hnot _ _ => exact absurd hmain (hnot s)
    | replying t ht hother _ _ =>
      obtain ⟨-, rfl⟩ := main_eq hmain ht
      rw [hpc] at hother
      rcases hother with hother | hother <;> cases hother
    | receiving _ _ _ _ hearly _ =>
      rcases hclient i with hended | ⟨hreceiving, hreply, -⟩
      · -- its process is there, and it cannot have left the loop of `recv`
        rcases hearly.pc with hother | hother | hother
        · rw [Ended, hother] at hended
          rcases hended with hended | hended | hended <;> cases hended
        · exact ⟨hother, hearly.reply, hearly.closed⟩
        · simp [Connection.gone, hother] at hgone
      · exact ⟨hreceiving, hreply, hearly.closed⟩
  · cases hphase j with
    | queued hqueued _ hearly _ =>
      rcases hclient j with hended | ⟨hreceiving, hreply, -⟩
      · exact .inl hended
      · exact .inr ⟨⟨hreceiving, hreply, hearly.closed⟩, hqueued⟩
    | receiving _ ht _ _ _ _ | replying _ ht _ _ _ => exact absurd (main_eq hmain ht).1.symm hj
    | served _ _ hclosed =>
      refine .inl ((hclient j).resolve_right ?_)
      rintro ⟨-, -, hover⟩
      rw [hangup_eq hthere, hclosed] at hover
      cases hover

/-- **Where the service stops.** -/
theorem stuck_iff (prm : Params) (n : ℕ) (σ : State n) (hσ : (service prm n).Reachable σ) :
    (service prm n).Stuck σ ↔
      (∀ i, Ended (σ.conn i).client) ∧
          (σ.main = .failed ∨ σ.main = .accepting ∧ ∀ i, (σ.conn i).queued = false) ∨
        ∃ i s, Deadlock σ i s := by
  have hsound := sound_reachable hσ
  constructor
  · intro hstuck
    have hclient := fun j => ended_or_waits (hsound.client j) (client_stuck hstuck j)
    cases hmain : σ.main with
    | failed =>
      refine .inl ⟨fun i => (hclient i).resolve_right ?_, .inl rfl⟩
      rintro ⟨-, -, hover⟩
      rw [hangup_of_failed hmain] at hover
      cases hover
    | accepting =>
      have hserved := served_of_stuck hsound hmain hstuck
      refine .inl ⟨fun i => (hclient i).resolve_right ?_, .inr ⟨rfl, fun i => (hserved i).1⟩⟩
      rintro ⟨-, -, hover⟩
      rw [hangup_eq (by rw [hmain]; exact nofun), (hserved i).2] at hover
      cases hover
    | handling i s => exact .inr ⟨i, s, deadlock_of_stuck hsound hmain hstuck⟩
  · rintro (⟨hended, hmain⟩ | ⟨i, s, hdeadlock⟩)
    · exact stuck_of_ended hended hmain
    · exact hdeadlock.stuck

/-- Two clients; the command of the one that is accepted comes in two pieces. -/
def inPieces : List (Event 2) :=
  [.client (Fin.last 1) (.send (.taken 4)), .client ⟨0, Nat.two_pos⟩ (.send (.taken 4)),
    .accept (Fin.last 1) 0 (fun _ => 0) fun _ => 0, .handler (.recv (.chunk (charBytes "TI"))),
    .handler (.recv (.chunk (charBytes "ME")))]

def afterPieces : State 2 :=
  ((service time 2).run (established time 2) inPieces).getD (established time 2)

theorem stuck_inPieces : (service time 2).Stuck afterPieces := by
  have hrun : (service time 2).run (established time 2) inPieces = some afterPieces := rfl
  refine (stuck_iff time 2 afterPieces ((Machine.Reachable.init established_init).run hrun)).mpr
    (.inr ⟨Fin.last 1, _, rfl, rfl, rfl, ⟨rfl, rfl, rfl⟩, fun j hj => ?_⟩)
  match j with
  | ⟨0, _⟩ => exact .inr ⟨⟨rfl, rfl, rfl⟩, rfl⟩
  | ⟨1, _⟩ => exact absurd rfl hj

/-! ### A command in pieces -/

/-- The client has sent its command and waits; the handler has received a part of it, which did
not come all at once. -/
structure Starving (prm : Params) (c : Connection) (s : Handler) : Prop where
  pc : s.pc = .receiving
  client : c.client.pc = .receiving
  sent : c.client.sender.taken.length = prm.SERVER_COMMAND.length
  part : c.request.length < prm.SERVER_COMMAND.length

/-- The server has sent it nothing. -/
theorem Starving.early (h : Starving prm c s) (hphase : Phase (.handling i s) i c) :
    Early c ∧ ∃ k, s.recvBytes = BitVec.ofNat 32 k ∧
      k + c.request.length ≤ c.client.sender.taken.length := by
  cases hphase with
  | queued _ hnot _ _ => exact absurd rfl (hnot s)
  | served hnot _ _ => exact absurd rfl (hnot s)
  | replying t ht hother _ _ =>
    cases ht
    rw [h.pc] at hother
    rcases hother with hother | hother <;> cases hother
  | receiving t ht _ _ hearly hcount =>
    cases ht
    obtain ⟨k, -, hbytes, hle⟩ := hcount (by rw [h.client]; exact nofun)
    exact ⟨hearly, k, hbytes, hle⟩

theorem Starving.waits (h : Starving prm c s) (hphase : Phase (.handling i s) i c) : Waits c :=
  have hearly := (h.early hphase).1
  ⟨h.client, hearly.reply, hearly.closed⟩

/-- A chunk shorter than the command keeps the handler where it is, or ends it. -/
theorem Starving.handlerStep (h : Starving prm c s) (hphase : Phase (.handling i s) i c)
    {ev : TimeServer.Event} (hs : TimeServer.step prm s ev = some s')
    (hc : c.handlerStep s ev = some c') :
    (s'.pc = .failed ∨ Starving prm c' s') ∧ c'.queued = c.queued ∧ c'.reply = c.reply := by
  rcases handler_step_cases hs with ⟨r, rfl, -, -, rfl⟩ | ⟨r, rfl, hpc, rfl⟩
  · obtain ⟨bytes, hbytes, rfl⟩ := Option.map_eq_some_iff.mp hc
    refine ⟨?_, rfl, rfl⟩
    obtain ⟨-, k, hkbytes, hle⟩ := h.early hphase
    rw [(h.waits hphase).gone] at hbytes
    rcases arrives_eq_some hbytes with ⟨data, hdata, rfl, heq⟩ | ⟨hover, -⟩
    · have hsplit := congrArg List.length heq
      have hpart := h.part
      have hsent := h.sent
      have hcommand := prm.command_le
      rw [List.length_append] at hsplit
      have hroom : k + data.length < bufSize := by
        rw [bufSize]
        omega
      have hwaiting : TimeServer.Waiting (k + data.length) (s.recv prm (.chunk data)) :=
        TimeServer.recv_waiting hdata (.inr (by omega)) hroom le_rfl hkbytes
      rcases hwaiting with hfailed | ⟨hreceiving, -⟩
      · exact .inl hfailed
      · exact .inr ⟨hreceiving, h.client, h.sent, show bytes.length < _ by omega⟩
    · cases hover
  · rw [h.pc] at hpc
    cases hpc

/-- Whoever has nothing on its way takes nothing. -/
theorem clientStep_reply {hangup : Bool} (h : c.clientStep prm hangup ev = some c')
    (hreply : c.reply = []) : c'.reply = [] := by
  obtain ⟨client, -, h⟩ := Option.bind_eq_some_iff.mp h
  cases ev with
  | send r =>
    obtain ⟨bytes, -, rfl⟩ := Option.map_eq_some_iff.mp h
    exact hreply
  | close ok =>
    obtain rfl := Option.some.inj h
    exact hreply
  | recv r =>
    obtain ⟨bytes, hbytes, rfl⟩ := Option.map_eq_some_iff.mp h
    show bytes = []
    rw [hreply] at hbytes
    rcases arrives_eq_some hbytes with ⟨data, -, -, heq⟩ | ⟨-, heq⟩
    · exact (List.append_eq_nil_iff.mp heq.symm).2
    · exact heq

/-- Still in the queue, with nothing on its way to it. -/
def Forgotten (c : Connection) : Prop := c.queued = true ∧ c.reply = []

/-- The server has ended or is with a client that starves, and the clients in `Q` are forgotten. -/
structure Starved (prm : Params) (Q : Fin n → Prop) (i : Fin n) (σ : State n) : Prop where
  main : σ.main = .failed ∨ ∃ s, σ.main = .handling i s ∧ Starving prm (σ.conn i) s
  queue : ∀ j, Q j → Forgotten (σ.conn j)

section Starved

variable {Q : Fin n → Prop}

/-- A step that only changes a connection, and not that of the client that starves. -/
theorem Starved.update (h : Starved prm Q i σ) (hc : Forgotten (σ.conn j) → Forgotten c)
    (hj : ∀ s, σ.main = .handling i s → j ≠ i) :
    Starved prm Q i { σ with conn := update σ.conn j c } := by
  refine ⟨h.main.imp_right ?_, ?_⟩
  · rintro ⟨s, hmain, hs⟩
    refine ⟨s, hmain, ?_⟩
    have hsame : Function.update σ.conn j c i = σ.conn i :=
      Function.update_of_ne (hj s hmain).symm c σ.conn
    show Starving prm (Function.update σ.conn j c i) s
    rw [hsame]
    exact hs
  · exact forall_update (P := fun k c => Q k → Forgotten c) (fun hq => hc (h.queue j hq))
      fun k _ => h.queue k

theorem Starved.step {ev : Event n} (hσ : Sound prm σ) (h : Starved prm Q i σ)
    (hstep : (service prm n).step σ ev = some σ') : Starved prm Q i σ' := by
  have hbusy : ∀ j t, σ.main = .handling j t →
      j = i ∧ Starving prm (σ.conn i) t ∧ Phase (.handling i t) i (σ.conn i) := by
    intro j t hmain
    rcases h.main with hfailed | ⟨s, hs, hstarving⟩
    · rw [hmain] at hfailed
      cases hfailed
    · obtain ⟨hj, rfl⟩ := main_eq hs hmain
      have hphase := hσ.phase.resolve_left (by rw [hmain]; exact nofun) i
      rw [hs] at hphase
      exact ⟨hj.symm, hstarving, hphase⟩
  cases step_move hstep with
  | client j ev c hc =>
    obtain ⟨hqueued, -⟩ := clientStep_frame hc
    refine h.update (fun hj => ⟨hqueued.trans hj.1, clientStep_reply hc hj.2⟩) fun s hmain => ?_
    rintro rfl
    -- the client that starves makes no call
    obtain ⟨-, hstarving, hphase⟩ := hbusy _ _ hmain
    have hwaits := hstarving.waits hphase
    rw [hangup_eq (by rw [hmain]; exact nofun), hwaits.closed, hwaits.clientStep] at hc
    cases hc
  | accept j errno recvBuf sendBuf hmain hqueued =>
    rcases h.main with hother | ⟨s, hother, -⟩
    all_goals
      rw [hmain] at hother
      cases hother
  | handler j t t' ev c hmain ht hc =>
    obtain ⟨rfl, hstarving, hphase⟩ := hbusy j t hmain
    obtain ⟨hnext, hqueued, hreply⟩ := hstarving.handlerStep hphase ht hc
    refine ⟨?_, forall_update (P := fun k c => Q k → Forgotten c) (fun hq => ?_)
      fun k _ => h.queue k⟩
    · by_cases hfailed : t'.pc = .failed
      · exact .inl (if_pos hfailed)
      · refine .inr ⟨t', if_neg hfailed, ?_⟩
        show Starving prm (Function.update σ.conn j c j) t'
        rw [Function.update_self]
        exact hnext.resolve_left hfailed
    · obtain ⟨hq', hreply'⟩ := h.queue j hq
      exact ⟨hqueued.trans hq', hreply.trans hreply'⟩
  | close j t ok hmain hpc =>
    have hother := (hbusy j t hmain).2.1.pc
    rw [hpc] at hother
    cases hother
  | sigpipeClient j hpc hover =>
    refine h.update id fun s hmain => ?_
    rintro rfl
    have hother := (hbusy _ s hmain).2.1.client
    rw [hpc] at hother
    cases hother
  | sigpipeServer j t hmain hpc hgone => exact ⟨.inl rfl, h.queue⟩

/-- **Starvation**: once the handler has received a part of a command that has been sent, the
server never accepts a client again, and those in the queue are never sent a byte. -/
theorem starves (prm : Params) (n : ℕ) (σ σ' : State n) (i : Fin n) (s : Handler)
    (evs : List (Event n)) (hσ : (service prm n).Reachable σ) (hmain : σ.main = .handling i s)
    (h : Starving prm (σ.conn i) s) (hrun : (service prm n).run σ evs = some σ') :
    (σ'.main = .failed ∨ ∃ s', σ'.main = .handling i s' ∧ s'.pc = .receiving) ∧
      ∀ j, (σ.conn j).queued = true → (σ'.conn j).queued = true ∧ (σ'.conn j).reply = [] := by
  have hstart : Starved prm (fun j => (σ.conn j).queued = true) i σ := by
    refine ⟨.inr ⟨s, hmain, h⟩, fun j hj => ⟨hj, ?_⟩⟩
    cases (sound_reachable hσ).phase.resolve_left (by rw [hmain]; exact nofun) j with
    | queued _ _ hearly _ => exact hearly.reply
    | receiving _ _ _ hnot _ _ | replying _ _ _ hnot _ | served _ hnot _ =>
      rw [hj] at hnot
      cases hnot
  have hend := Machine.run_invariant
    (I := fun σ => Sound prm σ ∧ Starved prm _ i σ)
    (fun _ _ _ hI hstep => ⟨hI.1.step hstep, hI.2.step hI.1 hstep⟩) hrun
    ⟨sound_reachable hσ, hstart⟩
  refine ⟨hend.2.main.imp_right ?_, hend.2.queue⟩
  rintro ⟨s', hs', hstarving⟩
  exact ⟨s', hs', hstarving.pc⟩

/-- The command of the last client has come in part. -/
def inPart : List (Event 2) :=
  [.client (Fin.last 1) (.send (.taken 4)), .accept (Fin.last 1) 0 (fun _ => 0) fun _ => 0,
    .handler (.recv (.chunk (charBytes "TI")))]

def afterPart : State 2 :=
  ((service time 2).run (established time 2) inPart).getD (established time 2)

/-- The rest of it comes, and is not the command either. -/
theorem starves_inPart : ∃ σ' : State 2,
    (service time 2).run afterPart [.handler (.recv (.chunk (charBytes "ME")))] = some σ' ∧
      (σ'.main = .failed ∨ ∃ s', σ'.main = .handling (Fin.last 1) s' ∧ s'.pc = .receiving) ∧
      ∀ j, (afterPart.conn j).queued = true →
        (σ'.conn j).queued = true ∧ (σ'.conn j).reply = [] := by
  have hfirst : (service time 2).run (established time 2) inPart = some afterPart := rfl
  have hsome : ((service time 2).run afterPart
    [.handler (.recv (.chunk (charBytes "ME")))]).isSome = true := rfl
  obtain ⟨σ', hσ'⟩ := Option.isSome_iff_exists.mp hsome
  exact ⟨σ', hσ', starves time 2 afterPart σ' (Fin.last 1) _ _
    ((Machine.Reachable.init established_init).run hfirst) rfl ⟨rfl, rfl, rfl, by decide⟩ hσ'⟩

end Starved

end TimeService
