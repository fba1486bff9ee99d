/-
The TIME client of Lab07/03 (`client.c`).

`main` sends the command with the loop of `TimeSends`, and then receives until the server
closes the connection.  Its loop of `recv` stores every chunk at the beginning of the buffer.

* `client` — the client on a connection that has been established, one step for each call;
* `transmissions_iff` — when the messages of the two programs get across;
* `reception_iff` — the client receives a reply exactly if it comes in one chunk, of at
  least two bytes, that leaves room for the terminator (or if it is empty).
-/
import SistemiDiCalcolo.TimeSends
import SistemiDiCalcolo.TimeServerChunks

open AccessLog (Byte)
open Memory (cString)
open TimeServer (Params time Sender Sent Received Restarts sendLoop bufSize recv_buf_len EINTR)

namespace TimeClient

/-- In the loop of `send`, in that of `recv`, about to `close`; the terminator has been stored out
of the bounds of `recv_buf`, the end, or an error. -/
inductive Pc
  | sending
  | receiving
  | closing
  | undefined
  | exited
  | failed
  deriving DecidableEq, Repr

inductive Event
  | send (r : Sent)
  | recv (r : Received)
  | close (ok : Bool)

/-- The text that `command` points to, the variables of the loop of `send` with `errno`, those of
the loop of `recv`, and what has been printed. -/
structure Client where
  pc : Pc
  command : Memory Byte
  sender : Sender
  recvBuf : Memory Byte
  recvBytes : CInt
  printed : List Byte

namespace Client

/-- How many bytes `recv` is asked for. -/
def recvLen (s : Client) : SizeT := recv_buf_len - toSize s.recvBytes

/-- The loop of `recv` is over: the terminator goes after what has been counted. -/
def ends (s : Client) : Client :=
  if 0 ≤ s.recvBytes.toInt ∧ s.recvBytes.toInt < bufSize then
    { s with recvBuf := s.recvBuf.store s.recvBytes.toNat [0], pc := .closing }
  else { s with pc := .undefined }

/-- The test of the loop of `recv`. -/
def receives (s : Client) : Client :=
  if 0 < s.recvLen then { s with pc := .receiving } else s.ends

/-- What `recv` leaves in the buffer or in `errno`. -/
def received (s : Client) : Received → Client
  -- the address passed to `recv` is `recv_buf` at every pass
  | .chunk data => { s with recvBuf := s.recvBuf.store 0 data }
  | .error errno => { s with sender := { s.sender with errno := errno } }

/-- The body of the loop of `recv`. -/
def recv (s : Client) (r : Received) : Client :=
  let s := s.received r
  if r.ret = 0 then s.ends
  -- one byte is taken for an error
  else if r.ret = 1 then
    if s.sender.errno = EINTR then s.receives else { s with pc := .failed }
  else receives { s with recvBytes := s.recvBytes + r.ret }

/-- After the body of the loop of `send`. -/
def hasSent (s : Client) (sender : Sender) : Client :=
  match sender.pc with
  | .sending => { s with pc := .sending, sender := sender }
  | .ended => receives { s with sender := sender }
  | .failed => { s with pc := .failed, sender := sender }

end Client

/-- The next call. -/
def step (prm : Params) (s : Client) (ev : Event) : Option Client :=
  match s.pc, ev with
  | .sending, .send r => (s.sender.step s.command prm.allowed_command_len r).map s.hasSent
  | .receiving, .recv (.chunk data) =>
    if data.length ≤ s.recvLen.toNat then some (s.recv (.chunk data)) else none
  | .receiving, .recv (.error errno) => some (s.recv (.error errno))
  | .closing, .close true => some { s with pc := .exited, printed := cString bufSize s.recvBuf }
  | .closing, .close false => some { s with pc := .failed }
  | _, _ => none

/-- Nothing has been sent, whatever the buffer and `errno` hold. -/
def start (prm : Params) (errno : CInt) (command recvBuf : Memory Byte) : Client :=
  Client.hasSent
    { pc := .sending
      command := command
      sender := .start prm.allowed_command_len errno
      recvBuf := recvBuf
      recvBytes := 0
      printed := [] }
    (.start prm.allowed_command_len errno)

/-- The client, on a connection that has been established. -/
def client (prm : Params) : Machine Client Event where
  init s := ∃ errno command recvBuf,
    command.load 0 prm.SERVER_COMMAND.length = prm.SERVER_COMMAND ∧
      s = start prm errno command recvBuf
  step := step prm

/-! ### The command -/

section Command

variable {prm : Params} {s s' : Client} {r : Sent} {rets : List Sent}

/-- The client sends the command when `send` gives `rets`: its loop is over after the last of them,
and the socket has taken the command. -/
def Client.Transmits (prm : Params) (s : Client) (rets : List Sent) : Prop :=
  ∃ s', (client prm).run s (rets.map .send) = some s' ∧ s'.sender.pc = .ended ∧
    s'.sender.taken = prm.SERVER_COMMAND

theorem Client.sender_receives : s.receives.sender = s.sender ∧ s.receives.command = s.command ∧
    s.receives.pc ≠ .sending := by
  rw [receives]
  split_ifs
  · exact ⟨rfl, rfl, nofun⟩
  · rw [ends]
    split_ifs <;> exact ⟨rfl, rfl, nofun⟩

theorem Client.sender_hasSent (u : Sender) : (s.hasSent u).sender = u ∧
    (s.hasSent u).command = s.command ∧ ((s.hasSent u).pc = .sending ↔ u.pc = .sending) := by
  rw [hasSent]
  cases hpc : u.pc with
  | sending | failed => exact ⟨rfl, rfl, by simp⟩
  | ended =>
    obtain ⟨hsender, hcommand, hne⟩ := sender_receives (s := { s with sender := u })
    exact ⟨hsender, hcommand, iff_of_false hne nofun⟩

/-- A client out of the loop sends nothing. -/
theorem step_send (h : s.pc = .sending ↔ s.sender.pc = .sending) :
    step prm s (.send r)
      = (s.sender.step s.command prm.allowed_command_len r).map s.hasSent := by
  cases hpc : s.pc with
  | sending => simp only [step, hpc]
  | receiving | closing | undefined | exited | failed =>
    have hne : s.sender.pc ≠ .sending := by
      rw [hpc] at h
      exact fun heq => nomatch h.mpr heq
    have hnone : s.sender.step s.command prm.allowed_command_len r = none := by
      by_contra hsome
      obtain ⟨u, hu⟩ := Option.ne_none_iff_exists'.mp hsome
      exact hne (Sender.step_cases hu).1
    rw [hnone]
    simp only [step, hpc, Option.map_none]

/-- The run of the loop of `send` in the client. -/
theorem client_run {P : Sender → Prop} (h : s.pc = .sending ↔ s.sender.pc = .sending) :
    (∃ s', (client prm).run s (rets.map .send) = some s' ∧ P s'.sender) ↔
      ∃ u, (sendLoop s.command prm.allowed_command_len).run s.sender rets = some u ∧ P u := by
  induction rets generalizing s with
  | nil =>
    refine ⟨?_, ?_⟩
    · rintro ⟨s', hrun, hP⟩
      obtain rfl : s = s' := Option.some.inj hrun
      exact ⟨_, rfl, hP⟩
    · rintro ⟨u, hrun, hP⟩
      obtain rfl : s.sender = u := Option.some.inj hrun
      exact ⟨s, rfl, hP⟩
  | cons r rets ih =>
    have hstep : (client prm).step s (.send r)
        = (s.sender.step s.command prm.allowed_command_len r).map s.hasSent := step_send h
    rw [List.map_cons, Machine.run, Machine.run, hstep]
    show _ ↔ ∃ u, ((s.sender.step s.command prm.allowed_command_len r).bind _) = some u ∧ P u
    cases s.sender.step s.command prm.allowed_command_len r with
    | none => simp
    | some v =>
      obtain ⟨hsender, hcommand, hpc⟩ := Client.sender_hasSent (s := s) v
      have hrun := ih (s := s.hasSent v) (by rw [hpc, hsender])
      rw [hsender, hcommand] at hrun
      exact hrun

/-- **The command loop.** -/
theorem client_transmits_iff (hs : (client prm).init s) :
    s.Transmits prm rets ↔ Restarts prm.SERVER_COMMAND prm.SERVER_COMMAND rets := by
  obtain ⟨errno, command, recvBuf, hcommand, rfl⟩ := hs
  have hL : prm.SERVER_COMMAND.length < 2 ^ 31 := prm.command_le.trans_lt (by decide)
  have hexact : (Sender.start prm.allowed_command_len errno).Exact prm.SERVER_COMMAND
      prm.SERVER_COMMAND := Sender.exact_sends hL (List.nil_append _) (by rfl)
  obtain ⟨hsender, hbuf, hpc⟩ := Client.sender_hasSent
    (s := ⟨.sending, command, .start prm.allowed_command_len errno, recvBuf, 0, []⟩)
    (.start prm.allowed_command_len errno)
  have hrun := @client_run prm (start prm errno command recvBuf) rets
    (fun u => u.pc = .ended ∧ u.taken = prm.SERVER_COMMAND) (hpc.trans (by rw [start, hsender]))
  rw [start, hsender, hbuf] at hrun
  exact hrun.trans (Sender.transmits_iff hL hcommand hexact)

/-- **The transmissions of Lab07/03**: a message gets across, from the server or from the client,
if and only if no `send` returns -1 or 1, and wherever one begins the message goes on as it
begins. -/
theorem transmissions_iff (prm : Params) (rets : List Sent) :
    (∀ (s : TimeServer.Handler) (msg : List Byte), msg.length < bufSize →
      TimeServer.Replying msg s → (s.Transmits prm msg rets ↔ Restarts msg msg rets)) ∧
    ∀ s, (client prm).init s →
      (s.Transmits prm rets ↔ Restarts prm.SERVER_COMMAND prm.SERVER_COMMAND rets) :=
  ⟨fun _ _ hlen hs => TimeServer.handler_transmits_iff hlen hs, fun _ hs => client_transmits_iff hs⟩

/-- The command, and the refusal of the server, each taken by one `send`. -/
theorem transmissions_whole :
    (TimeServer.Handler.replies time (TimeServer.start 0 (fun _ => 0) fun _ => 0)).Transmits time
        TimeServer.INVALID_REQUEST [.taken 15] ∧
      (start time 0 (Memory.store (fun _ => 0) 0 time.SERVER_COMMAND) fun _ => 0).Transmits time
        [.taken 4] := by
  constructor
  · have hrefused : (TimeServer.start 0 (fun _ => 0) fun _ => 0).isCommand time = false := by
      decide
    have hreply := @TimeServer.replies_replying time
      (TimeServer.start 0 (fun _ => 0) fun _ => 0) rfl
    rw [hrefused] at hreply
    have hover : TimeServer.INVALID_REQUEST.drop 15 = [] := by decide
    refine ((transmissions_iff time [.taken 15]).1 _ _ (by decide) hreply).mpr ?_
    exact ⟨by decide, by decide, rfl, hover⟩
  · have hcommand : (client time).init
        (start time 0 (Memory.store (fun _ => 0) 0 time.SERVER_COMMAND) fun _ => 0) :=
      ⟨0, _, _, Memory.load_store, rfl⟩
    have hover : time.SERVER_COMMAND.drop 4 = [] := by decide
    refine ((transmissions_iff time [.taken 4]).2 _ hcommand).mpr ?_
    exact ⟨by decide, by decide, rfl, hover⟩

/-- The command taken by two calls: the second one begins with the first byte again. -/
theorem command_in_halves : ∃ s',
    (client time).run (start time 0 (Memory.store (fun _ => 0) 0 time.SERVER_COMMAND) fun _ => 0)
      ([.taken 2, .taken 2].map .send) = some s' ∧ s'.sender.pc = .ended ∧
    s'.sender.taken = charBytes "TITI" ∧ s'.sender.taken ≠ time.SERVER_COMMAND :=
  ⟨_, rfl, by decide, by decide, by decide⟩

end Command

/-! ### The reply -/

section Reply

variable {prm : Params} {s s' : Client} {data : List Byte} {k m : ℕ} {chunks : List (List Byte)}
  {evs : List Event}

/-- The loop of `recv` begins, whatever the buffer and `errno` hold. -/
structure Awaiting (s : Client) : Prop where
  pc : s.pc = .receiving
  recvBytes : s.recvBytes = 0

/-- The deliveries of a list of chunks, and the end of the connection. -/
def deliveries (chunks : List (List Byte)) : List Event :=
  (chunks ++ [[]]).map fun data => .recv (.chunk data)

/-- The loop is over after some of the deliveries; the terminator has gone into the buffer, and
what comes before it is the reply. -/
def Client.Receives (prm : Params) (s : Client) (chunks : List (List Byte)) : Prop :=
  ∃ evs s', evs <+: deliveries chunks ∧ (client prm).run s evs = some s' ∧ s'.pc = .closing ∧
    s'.recvBuf.load 0 s'.recvBytes.toNat = chunks.flatten

theorem Client.receives_of_lt (hbytes : s.recvBytes = BitVec.ofNat 32 k) (hk : k < bufSize) :
    s.receives = { s with pc := .receiving } := by
  rw [receives, if_pos]
  rw [recvLen, hbytes, BitVec.lt_def, TimeServer.toNat_recv_buf_len_sub hk.le]
  exact Nat.sub_pos_of_lt hk

/-- A full buffer: there is no room for the terminator. -/
theorem Client.receives_of_full (hbytes : s.recvBytes = BitVec.ofNat 32 bufSize) :
    s.receives = { s with pc := .undefined } := by
  have hlen : ¬ 0 < s.recvLen := by
    rw [recvLen, hbytes, BitVec.lt_def, TimeServer.toNat_recv_buf_len_sub le_rfl, Nat.sub_self]
    exact Nat.lt_irrefl 0
  rw [receives, if_neg hlen, ends, if_neg]
  rw [hbytes]
  decide

theorem Client.ends_of_lt (hbytes : s.recvBytes = BitVec.ofNat 32 k) (hk : k < bufSize) :
    s.ends = { s with recvBuf := s.recvBuf.store k [0], pc := .closing } := by
  have hsmall : k < 2 ^ 31 := hk.trans (by decide)
  have hnat : s.recvBytes.toNat = k := by
    rw [hbytes, BitVec.toNat_ofNat, Nat.mod_eq_of_lt (hsmall.trans (by decide))]
  rw [ends, if_pos, hnat]
  rw [hbytes, toInt_ofNat_of_lt hsmall]
  exact ⟨Int.natCast_nonneg k, Int.ofNat_lt.mpr hk⟩

/-- One byte is taken for an error. -/
theorem Client.recv_one (hbytes : s.recvBytes = BitVec.ofNat 32 k) (hk : k < bufSize)
    (hone : data.length = 1) :
    (s.recv (.chunk data)).pc = .failed ∨
      s.recv (.chunk data) = { s with recvBuf := s.recvBuf.store 0 data, pc := .receiving } := by
  have hlen : data.length ≤ bufSize := by
    rw [hone]
    decide
  have hzero : Received.ret (.chunk data) ≠ 0 := fun h => by
    have hnil := (TimeServer.ret_eq_iff hlen (k := 0) (by decide)).mp h
    omega
  have hret : Received.ret (.chunk data) = 1 :=
    (TimeServer.ret_eq_iff hlen (k := 1) (by decide)).mpr hone
  rw [recv, if_neg hzero, if_pos hret]
  split_ifs
  · right
    exact receives_of_lt (s := s.received (.chunk data)) hbytes hk
  · exact .inl rfl

/-- More bytes are counted. -/
theorem Client.recv_more (hbytes : s.recvBytes = BitVec.ofNat 32 k) (htwo : 2 ≤ data.length)
    (hlen : data.length ≤ bufSize) :
    s.recv (.chunk data) = receives { s with
      recvBuf := s.recvBuf.store 0 data
      recvBytes := BitVec.ofNat 32 (k + data.length) } := by
  have hzero : Received.ret (.chunk data) ≠ 0 := fun h => by
    have hnil := (TimeServer.ret_eq_iff hlen (k := 0) (by decide)).mp h
    omega
  have hone : Received.ret (.chunk data) ≠ 1 := fun h => by
    have hsingle := (TimeServer.ret_eq_iff hlen (k := 1) (by decide)).mp h
    omega
  have hsum : (s.received (.chunk data)).recvBytes + Received.ret (.chunk data)
      = BitVec.ofNat 32 (k + data.length) := by
    rw [BitVec.ofNat_add, ← hbytes]
    rfl
  rw [recv, if_neg hzero, if_neg hone, hsum]
  rfl

/-- An ended program does not go on to close the connection. -/
theorem not_closing_of_ended (hpc : s.pc = .failed ∨ s.pc = .undefined)
    (hrun : (client prm).run s evs = some s') : s'.pc ≠ .closing := by
  cases evs with
  | nil =>
    obtain rfl : s = s' := Option.some.inj hrun
    rcases hpc with hpc | hpc <;> rw [hpc] <;> exact nofun
  | cons ev evs =>
    obtain ⟨u, hu, -⟩ := Machine.run_cons_eq_some.mp hrun
    have hstep : step prm s ev = some u := hu
    rcases hpc with hpc | hpc <;> simp only [step, hpc] at hstep <;> cases hstep

/-- The end of the connection. -/
theorem step_closed (prm : Params) (hpc : s.pc = .receiving) :
    step prm s (.recv (.chunk []))
      = some (Client.ends { s with recvBuf := s.recvBuf.store 0 [] }) := by
  have hroom : ([] : List Byte).length ≤ s.recvLen.toNat := Nat.zero_le _
  simp only [step, hpc, if_pos hroom]
  rfl

/-- The connection can be closed only if there was room for the terminator. -/
theorem eq_of_closing (hpc : s.pc = .receiving) (hbytes : s.recvBytes = BitVec.ofNat 32 k)
    (hk : k ≤ bufSize) (h : step prm s (.recv (.chunk [])) = some s')
    (hclosing : s'.pc = .closing) :
    k < bufSize ∧
      s' = { s with recvBuf := (s.recvBuf.store 0 []).store k [0], pc := .closing } := by
  rw [step_closed prm hpc] at h
  obtain rfl := Option.some.inj h
  rcases Nat.lt_or_eq_of_le hk with hlt | rfl
  · exact ⟨hlt, Client.ends_of_lt (s := { s with recvBuf := s.recvBuf.store 0 [] }) hbytes hlt⟩
  · have hfull : ¬ (0 ≤ s.recvBytes.toInt ∧ s.recvBytes.toInt < bufSize) := by
      rw [hbytes]
      decide
    rw [Client.ends, if_neg hfull] at hclosing
    cases hclosing

theorem step_chunk (prm : Params) (data : List Byte) (hpc : s.pc = .receiving)
    (hbytes : s.recvBytes = BitVec.ofNat 32 k) (hroom : k + data.length ≤ bufSize) :
    step prm s (.recv (.chunk data)) = some (s.recv (.chunk data)) := by
  have hlen : data.length ≤ s.recvLen.toNat := by
    rw [Client.recvLen, hbytes, TimeServer.toNat_recv_buf_len_sub (by omega)]
    omega
  simp only [step, hpc, if_pos hlen]

/-- A loop that ends well has counted at most what has come, and exactly that only if no byte
came alone; and it has left the buffer alone beyond the longest chunk. -/
theorem run_deliveries (hpc : s.pc = .receiving)
    (hbytes : s.recvBytes = BitVec.ofNat 32 k) (hchunks : ∀ c ∈ chunks, c ≠ [])
    (hroom : k + chunks.flatten.length ≤ bufSize) (hevs : evs <+: deliveries chunks)
    (hrun : (client prm).run s evs = some s') (hclosing : s'.pc = .closing) :
    ∃ n, n < bufSize ∧ s'.recvBytes = BitVec.ofNat 32 n ∧ n ≤ k + chunks.flatten.length ∧
      (n = k + chunks.flatten.length → ∀ c ∈ chunks, c.length ≠ 1) ∧
      ∀ i, i < n → (∀ c ∈ chunks, c.length ≤ i) → s'.recvBuf i = s.recvBuf i := by
  induction chunks generalizing s k evs with
  | nil =>
    cases evs with
    | nil =>
      obtain rfl : s = s' := Option.some.inj hrun
      rw [hpc] at hclosing
      cases hclosing
    | cons ev evs =>
      obtain ⟨rfl, hnil⟩ := List.cons_prefix_cons.mp hevs
      obtain rfl := List.prefix_nil.mp hnil
      obtain ⟨u, hu, hend⟩ := Machine.run_cons_eq_some.mp hrun
      obtain rfl : u = s' := Option.some.inj hend
      rw [List.flatten_nil, List.length_nil, Nat.add_zero] at hroom ⊢
      obtain ⟨hlt, rfl⟩ := eq_of_closing hpc hbytes hroom hu hclosing
      refine ⟨k, hlt, hbytes, le_rfl, fun _ c hc => absurd hc List.not_mem_nil, fun i hi _ => ?_⟩
      show ((s.recvBuf.store 0 []).store k [0]) i = s.recvBuf i
      rw [Memory.store_of_lt hi, Memory.store_of_le (Nat.zero_le i)]
  | cons c chunks ih =>
    have hc := List.length_pos_iff.mpr (hchunks c List.mem_cons_self)
    have hrest : ∀ c ∈ chunks, c ≠ [] := fun d hd => hchunks d (List.mem_cons_of_mem c hd)
    rw [List.flatten_cons, List.length_append] at hroom ⊢
    cases evs with
    | nil =>
      obtain rfl : s = s' := Option.some.inj hrun
      rw [hpc] at hclosing
      cases hclosing
    | cons ev evs =>
      obtain ⟨rfl, hnext⟩ := List.cons_prefix_cons.mp hevs
      obtain ⟨u, hu, hrest'⟩ := Machine.run_cons_eq_some.mp hrun
      have hroom' : k + c.length ≤ bufSize := by omega
      obtain rfl := Option.some.inj ((step_chunk prm c hpc hbytes hroom').symm.trans hu)
      have hstored : ∀ i, (∀ d ∈ c :: chunks, d.length ≤ i) →
          s.recvBuf.store 0 c i = s.recvBuf i := by
        intro i hi
        refine Memory.store_of_le ?_
        rw [Nat.zero_add]
        exact hi c List.mem_cons_self
      rcases Nat.lt_or_eq_of_le (Nat.succ_le_of_lt hc) with htwo | hone
      · rw [Client.recv_more hbytes htwo (by omega)] at hrest'
        have hlt : k + c.length < bufSize := by
          by_contra hge
          have hfull : k + c.length = bufSize := by omega
          refine not_closing_of_ended (.inr ?_) hrest' hclosing
          rw [hfull, Client.receives_of_full rfl]
        rw [Client.receives_of_lt rfl hlt] at hrest'
        obtain ⟨n, hn, hbytes', hle, hall, hbuf⟩ :=
          ih (k := k + c.length) rfl rfl hrest (by omega) hnext hrest'
        refine ⟨n, hn, hbytes', by omega, fun heq => ?_, fun i hi hlong => ?_⟩
        · exact List.forall_mem_cons.mpr ⟨by omega, hall (by omega)⟩
        · rw [hbuf i hi fun d hd => hlong d (List.mem_cons_of_mem c hd)]
          exact hstored i hlong
      · rcases Client.recv_one hbytes (by omega) hone.symm with hfailed | hreceiving
        · exact absurd hclosing (not_closing_of_ended (.inl hfailed) hrest')
        · rw [hreceiving] at hrest'
          obtain ⟨n, hn, hbytes', hle, -, hbuf⟩ :=
            ih (s := { s with recvBuf := s.recvBuf.store 0 c, pc := .receiving }) (k := k) rfl
              hbytes hrest (by omega) hnext hrest'
          refine ⟨n, hn, hbytes', by omega, fun heq => by omega, fun i hi hlong => ?_⟩
          rw [hbuf i hi fun d hd => hlong d (List.mem_cons_of_mem c hd)]
          exact hstored i hlong

/-- A client whose buffer holds `b` everywhere. -/
def filled (b : Byte) : Client where
  pc := .receiving
  command := fun _ => 0
  sender := ⟨.ended, 0, 0, []⟩
  recvBuf := fun _ => b
  recvBytes := 0
  printed := []

/-- Of two chunks, none is as long as the reply. -/
theorem length_lt_flatten (hchunks : ∀ c ∈ chunks, c ≠ []) (hmany : 1 < chunks.length)
    (hdata : data ∈ chunks) : data.length < chunks.flatten.length := by
  refine Nat.lt_of_le_of_ne (List.sublist_flatten_of_mem hdata).length_le fun hlen => ?_
  rw [TimeServer.eq_singleton hchunks hdata hlen] at hmany
  exact Nat.lt_irrefl 1 hmany

/-- A reply that is received leaves room, its chunks are counted, and what it has beyond the
longest of them was in the buffer. -/
theorem Client.Receives.counted (h : s.Receives prm chunks) (hs : Awaiting s)
    (hchunks : ∀ c ∈ chunks, c ≠ []) (hlen : chunks.flatten.length ≤ bufSize) :
    chunks.flatten.length < bufSize ∧ (∀ c ∈ chunks, c.length ≠ 1) ∧
      ∀ i (hi : i < chunks.flatten.length), (∀ c ∈ chunks, c.length ≤ i) →
        chunks.flatten[i] = s.recvBuf i := by
  obtain ⟨evs, s', hevs, hrun, hclosing, hload⟩ := h
  obtain ⟨n, hn, hbytes, -, hall, hbuf⟩ := run_deliveries (k := 0) hs.pc hs.recvBytes hchunks
    ((Nat.zero_add _).le.trans hlen) hevs hrun hclosing
  have hnat : s'.recvBytes.toNat = n := by
    rw [hbytes, BitVec.toNat_ofNat, Nat.mod_eq_of_lt (hn.trans (by decide))]
  have hwhole : n = chunks.flatten.length := by
    rw [← hload, Memory.length_load, hnat]
  rw [hnat] at hload
  subst hwhole
  refine ⟨hn, hall (Nat.zero_add _).symm, fun i hi hlong => ?_⟩
  rw [← hbuf i hi hlong, ← Memory.eq_getElem_of_load hload hi, Nat.zero_add]

/-- A reply that comes in pieces is not received by every buffer. -/
theorem length_le_one (hchunks : ∀ c ∈ chunks, c ≠ []) (hlen : chunks.flatten.length ≤ bufSize)
    (h : ∀ s, Awaiting s → s.Receives prm chunks) : chunks.length ≤ 1 := by
  by_contra hmany
  have hlt : ∀ c ∈ chunks, c.length < chunks.flatten.length := fun c =>
    length_lt_flatten hchunks (Nat.lt_of_not_le hmany)
  obtain ⟨c, hc⟩ := List.exists_mem_of_length_pos (Nat.zero_lt_of_lt (Nat.lt_of_not_le hmany))
  have hlast : chunks.flatten.length - 1 < chunks.flatten.length :=
    Nat.sub_lt (Nat.zero_lt_of_lt (hlt c hc)) Nat.one_pos
  -- no chunk reaches the last byte, so it would be what the buffer held
  have hcell : ∀ b : Byte, chunks.flatten[chunks.flatten.length - 1] = b := fun b =>
    ((h (filled b) ⟨rfl, rfl⟩).counted ⟨rfl, rfl⟩ hchunks hlen).2.2 _ hlast fun d hd =>
      Nat.le_sub_one_of_lt (hlt d hd)
  have hsame : (0 : Byte) = 1 := (hcell 0).symm.trans (hcell 1)
  exact absurd hsame (by decide)

theorem receives_nil (hs : Awaiting s) : s.Receives prm [] := by
  have hstep := step_closed prm hs.pc
  rw [Client.ends_of_lt (s := { s with recvBuf := s.recvBuf.store 0 [] }) (k := 0) hs.recvBytes
    (by decide)] at hstep
  refine ⟨_, _, List.prefix_rfl, Machine.run_cons (M := client prm) hstep, rfl, ?_⟩
  show Memory.load _ 0 s.recvBytes.toNat = []
  rw [hs.recvBytes]
  rfl

/-- One chunk, and the end of the connection. -/
theorem receives_singleton (hs : Awaiting s) (htwo : 2 ≤ data.length)
    (hlt : data.length < bufSize) : s.Receives prm [data] := by
  have hzero : s.recvBytes = BitVec.ofNat 32 0 := hs.recvBytes
  have hbytes : BitVec.ofNat 32 (0 + data.length) = (BitVec.ofNat 32 data.length : CInt) := by
    rw [Nat.zero_add]
  have hchunk := step_chunk prm data hs.pc hzero (by omega)
  rw [Client.recv_more hzero htwo hlt.le, hbytes, Client.receives_of_lt rfl hlt] at hchunk
  have hclosed := step_closed prm (s := { s with
    recvBuf := s.recvBuf.store 0 data
    recvBytes := BitVec.ofNat 32 data.length
    pc := .receiving }) rfl
  rw [Client.ends_of_lt rfl hlt] at hclosed
  refine ⟨_, _, List.prefix_rfl, (Machine.run_cons (M := client prm) hchunk).trans
    (Machine.run_cons (M := client prm) hclosed), rfl, ?_⟩
  show Memory.load (Memory.store ((s.recvBuf.store 0 data).store 0 []) data.length [0]) 0
    (BitVec.ofNat 32 data.length).toNat = [data].flatten
  have hnat : (BitVec.ofNat 32 data.length).toNat = data.length := by
    rw [BitVec.toNat_ofNat, Nat.mod_eq_of_lt (hlt.trans (by decide))]
  have hsame : (s.recvBuf.store 0 data).store 0 [] = s.recvBuf.store 0 data :=
    funext fun i => Memory.store_of_le (Nat.zero_le i)
  rw [hnat, hsame, Memory.load_store_end, Memory.load_store, List.flatten_singleton]

/-- **The reception**: a reply is received, whatever the buffer held before, if and only if it is
empty or comes in one chunk, of at least two bytes, that leaves room for the terminator. -/
theorem reception_iff (prm : Params) (chunks : List (List Byte)) (hchunks : ∀ c ∈ chunks, c ≠ [])
    (hlen : chunks.flatten.length ≤ bufSize) :
    (∀ s, Awaiting s → s.Receives prm chunks) ↔
      chunks.length ≤ 1 ∧ chunks.flatten.length ≠ 1 ∧ chunks.flatten.length < bufSize := by
  constructor
  · intro h
    obtain ⟨hlt, hsingles, -⟩ := (h (filled 0) ⟨rfl, rfl⟩).counted ⟨rfl, rfl⟩ hchunks hlen
    refine ⟨length_le_one hchunks hlen h, fun hone => ?_, hlt⟩
    cases chunks with
    | nil => cases hone
    | cons c chunks =>
      have hc := List.length_pos_iff.mpr (hchunks c List.mem_cons_self)
      have hne := hsingles c List.mem_cons_self
      rw [List.flatten_cons, List.length_append] at hone
      omega
  · rintro ⟨hone, hne, hlt⟩ s hs
    match chunks, hone with
    | [], _ => exact receives_nil hs
    | [c], _ =>
      rw [List.flatten_singleton] at hne hlt
      have hc := List.length_pos_iff.mpr (hchunks c (List.mem_singleton_self c))
      exact receives_singleton hs (by omega) hlt

/-- A reply in one chunk. -/
theorem reception_whole :
    (filled 0).Receives time [charBytes "INVALID REQUEST"] := by
  have hchunks : ∀ c ∈ [charBytes "INVALID REQUEST"], c ≠ [] := by decide
  exact (reception_iff time [charBytes "INVALID REQUEST"] hchunks (by decide)).mpr (by decide) _
    ⟨rfl, rfl⟩

/-- The same in two: the second chunk overwrites the first. -/
theorem reception_in_pieces : ∃ s',
    (client time).run (filled 0) (deliveries [charBytes "INVALID ", charBytes "REQUEST"])
        = some s' ∧ s'.pc = .closing ∧ s'.recvBytes = 15 ∧
      s'.recvBuf.load 0 15 = charBytes "REQUEST " ++ List.replicate 7 0 ∧
      s'.recvBuf.load 0 15 ≠ charBytes "INVALID REQUEST" :=
  ⟨_, rfl, by decide, by decide, by decide, by decide⟩

end Reply

end TimeClient
