/-
Chunks of the request in the TIME server of Lab07/03.

* `run_waiting` — chunks of one byte, or not as long as the command, leave the handler in
  its loop or end it with an error;
* `chunking` — the request is answered if and only if it arrives in one chunk, of at
  least two bytes;
* `exists_run_reply` — such a request and one `send` are a whole run of the handler, and
  the reply is what the socket has taken.
-/
import SistemiDiCalcolo.TimeServer

open AccessLog (Byte)
open Memory (cString strlen)

namespace TimeServer

variable {prm : Params} {s s' : Handler} {n : ℕ} {data : List Byte}

/-! ### The tests on `ret` -/

theorem ret_eq_iff {k : ℕ} (hdata : data.length ≤ bufSize) (hk : k ≤ bufSize) :
    Received.ret (.chunk data) = BitVec.ofNat 32 k ↔ data.length = k := by
  rw [bufSize] at hdata hk
  exact ofNat_inj_of_lt (by omega) (by omega)

/-- The test that ends the loop looks at this chunk only. -/
theorem ret_eq_allowed_iff (hdata : data.length < bufSize) :
    toSize (Received.ret (.chunk data)) = prm.allowed_command_len ↔
      data.length = prm.SERVER_COMMAND.length := by
  have hcommand := prm.command_le
  rw [bufSize] at hdata
  rw [Received.ret, toSize_ofNat (by omega), Params.allowed_command_len]
  exact ofNat_inj_of_lt (by omega) (by omega)

/-! ### Chunks that do not end the loop -/

/-- What is left of a buffer after `n` bytes. -/
theorem toNat_recv_buf_len_sub (hn : n ≤ bufSize) :
    (recv_buf_len - toSize (BitVec.ofNat 32 n)).toNat = bufSize - n := by
  rw [bufSize] at hn ⊢
  rw [toSize_ofNat (by omega), recv_buf_len, BitVec.toNat_sub, BitVec.toNat_ofNat,
    BitVec.toNat_ofNat, bufSize]
  omega

theorem toNat_recvLen (hbytes : s.recvBytes = BitVec.ofNat 32 n) (hn : n ≤ bufSize) :
    s.recvLen.toNat = bufSize - n := by
  rw [Handler.recvLen, hbytes, toNat_recv_buf_len_sub hn]

/-- There is room for more than what has been received. -/
theorem receives_eq (hbytes : s.recvBytes = BitVec.ofNat 32 n) (hn : n < bufSize) :
    s.receives prm = { s with pc := .receiving } := by
  rw [Handler.receives, if_pos]
  rw [BitVec.lt_def, toNat_recvLen hbytes hn.le]
  exact Nat.sub_pos_of_lt hn

/-- In the loop, with at most `n` bytes counted, or ended with an error. -/
def Waiting (n : ℕ) (s : Handler) : Prop :=
  s.pc = .failed ∨ s.pc = .receiving ∧ ∃ k ≤ n, s.recvBytes = BitVec.ofNat 32 k

theorem waiting_start {errno : CInt} {recvBuf sendBuf : Memory Byte} :
    Waiting 0 (start errno recvBuf sendBuf) := .inr ⟨rfl, 0, le_rfl, rfl⟩

/-- A chunk of one byte, or not as long as the command. -/
theorem recv_waiting (hdata : data ≠ [])
    (hshort : data.length = 1 ∨ data.length ≠ prm.SERVER_COMMAND.length)
    (hlen : n + data.length < bufSize) {k : ℕ} (hk : k ≤ n)
    (hbytes : s.recvBytes = BitVec.ofNat 32 k) :
    Waiting (n + data.length) (s.recv prm (.chunk data)) := by
  have hlt : data.length < bufSize := (Nat.le_add_left _ n).trans_lt hlen
  have hroom : k + data.length < bufSize := (Nat.add_le_add_right hk _).trans_lt hlen
  have hzero : Received.ret (.chunk data) ≠ 0 := by
    intro h
    have hnil : data.length = 0 := (ret_eq_iff hlt.le (by decide)).mp h
    exact hdata (List.length_eq_zero_iff.mp hnil)
  simp only [Handler.recv]
  rw [if_neg hzero]
  by_cases hone : data.length = 1
  · -- one byte is taken for an error: it is not counted, and `errno` decides
    have hret : Received.ret (.chunk data) = 1 := congrArg (BitVec.ofNat 32) hone
    rw [if_pos hret]
    split
    · have hk' : k < bufSize := (Nat.le_add_right k _).trans_lt hroom
      rw [receives_eq (s := s.received (.chunk data)) hbytes hk']
      exact .inr ⟨rfl, k, hk.trans (Nat.le_add_right n _), hbytes⟩
    · exact .inl rfl
  · -- more bytes are counted, and the loop goes on
    have hret : Received.ret (.chunk data) ≠ 1 := by
      intro h
      exact hone ((ret_eq_iff hlt.le (by decide)).mp h)
    have hallowed : toSize (Received.ret (.chunk data)) ≠ prm.allowed_command_len := by
      intro h
      exact (hshort.resolve_left hone) ((ret_eq_allowed_iff hlt).mp h)
    have hsum : s.recvBytes + Received.ret (.chunk data) = BitVec.ofNat 32 (k + data.length) := by
      rw [hbytes, Received.ret, BitVec.ofNat_add]
    rw [if_neg hret, if_neg hallowed, receives_eq (n := k + data.length) hsum hroom]
    exact .inr ⟨rfl, k + data.length, Nat.add_le_add_right hk _, hsum⟩

/-- The deliveries of a list of chunks. -/
def deliveries (chunks : List (List Byte)) : List Event :=
  chunks.map fun data => .recv (.chunk data)

/-- Any number of such chunks, by induction on them. -/
theorem run_waiting {chunks : List (List Byte)} (hchunks : ∀ data ∈ chunks, data ≠ [])
    (hshort : ∀ data ∈ chunks, data.length = 1 ∨ data.length ≠ prm.SERVER_COMMAND.length)
    (hlen : n + chunks.flatten.length < bufSize) (hs : Waiting n s)
    (h : (connection_handler prm).run s (deliveries chunks) = some s') :
    Waiting (n + chunks.flatten.length) s' := by
  induction chunks generalizing n s with
  | nil =>
    obtain rfl : s = s' := Option.some.inj h
    exact hs
  | cons data chunks ih =>
    obtain ⟨u, hu, hrun⟩ := Machine.run_cons_eq_some.mp h
    rw [List.flatten_cons, List.length_append, ← Nat.add_assoc] at hlen ⊢
    have hstep : step prm s (.recv (.chunk data)) = some u := hu
    have hwaiting : Waiting (n + data.length) u := by
      -- a handler that has failed takes no chunk
      rcases hs with hpc | ⟨hpc, k, hk, hbytes⟩
      · simp only [step, hpc] at hstep
        cases hstep
      · simp only [step, hpc] at hstep
        split at hstep <;> cases hstep
        exact recv_waiting (hchunks data List.mem_cons_self) (hshort data List.mem_cons_self)
          (by omega) hk hbytes
    exact ih (fun c hc => hchunks c (List.mem_cons_of_mem data hc))
      (fun c hc => hshort c (List.mem_cons_of_mem data hc)) hlen hwaiting hrun

/-! ### The reply -/

/-- What a request is answered. -/
def Params.reply (prm : Params) (request : List Byte) : List Byte :=
  if request = prm.SERVER_COMMAND then prm.ctime else INVALID_REQUEST

/-- The request is in `recv_buf`, its reply in `send_buf`, and the handler has left the loop of
`recv` to send it. -/
structure Answered (prm : Params) (request : List Byte) (s : Handler) : Prop where
  pc : s.pc = .sending
  recvBytes : s.recvBytes = BitVec.ofNat 32 request.length
  recvBuf : s.recvBuf.load 0 request.length = request
  sendBuf : cString bufSize s.sendBuf = prm.reply request
  serverMessageLen : s.serverMessageLen = BitVec.ofNat 64 (prm.reply request).length
  sentBytes : s.sentBytes = 0

/-- A handler that answers is not waiting. -/
theorem Answered.not_waiting {request : List Byte} (h : Answered prm request s) :
    ¬ Waiting n s := by
  rintro (hpc | ⟨hpc, -⟩)
  all_goals
    rw [h.pc] at hpc
    cases hpc

/-- Both replies are texts that fit in `send_buf`. -/
theorem reply_text (prm : Params) (request : List Byte) :
    0 < (prm.reply request).length ∧ (prm.reply request).length < bufSize ∧
      0 ∉ prm.reply request := by
  rw [Params.reply]
  split
  · rw [prm.length_ctime]
    exact ⟨by decide, by decide, prm.zero_notMem_ctime⟩
  · decide

theorem isCommand_eq {request : List Byte} (hlen : request.length = prm.SERVER_COMMAND.length)
    (hbytes : s.recvBytes = BitVec.ofNat 32 request.length)
    (hbuf : s.recvBuf.load 0 request.length = request) :
    s.isCommand prm = decide (request = prm.SERVER_COMMAND) := by
  have hle := prm.command_le
  have hsize : toSize s.recvBytes = prm.allowed_command_len := by
    rw [hbytes, toSize_ofNat (by omega), hlen, Params.allowed_command_len]
  rw [Handler.isCommand, ← hlen, hbuf]
  simp [hsize]

/-- After the loop of `recv` a request as long as the command is answered. -/
theorem replies_answered {request : List Byte}
    (hlen : request.length = prm.SERVER_COMMAND.length)
    (hbytes : s.recvBytes = BitVec.ofNat 32 request.length)
    (hbuf : s.recvBuf.load 0 request.length = request) : Answered prm request (s.replies prm) := by
  obtain ⟨hpos, hlt, hzero⟩ := reply_text prm request
  have htext : (if s.isCommand prm then prm.ctime else INVALID_REQUEST) = prm.reply request := by
    rw [isCommand_eq hlen hbytes hbuf, Params.reply]
    simp only [decide_eq_true_eq]
  have hstring : cString bufSize (s.sendBuf.store 0 (prm.reply request ++ [0])) =
      prm.reply request := Memory.cString_store_of_notMem hlt hzero
  simp only [Handler.replies, htext]
  refine ⟨?_, hbytes, hbuf, hstring, ?_, rfl⟩
  · have hsend : 0 < BitVec.ofNat 64 (strlen bufSize (s.sendBuf.store 0 (prm.reply request ++ [0])))
        - toSize 0 := by
      rw [bufSize] at hlt
      rw [strlen, hstring, BitVec.lt_def, BitVec.toNat_sub, BitVec.toNat_ofNat]
      show 0 < (2 ^ 64 - 0 + (prm.reply request).length % 2 ^ 64) % 2 ^ 64
      omega
    rw [Handler.sends, if_pos]
    exact hsend
  · show BitVec.ofNat 64 (strlen bufSize _) = _
    rw [strlen, hstring]

/-- `recv` gives nothing to the socket. -/
theorem recv_taken {r : Received} : (s.recv prm r).taken = s.taken := by
  have hreceived : (s.received r).taken = s.taken := by cases r <;> rfl
  have hreceives : ∀ u : Handler, (u.receives prm).taken = u.taken := fun u => by
    rw [Handler.receives]
    split_ifs <;> rfl
  rw [← hreceived]
  simp only [Handler.recv]
  split_ifs
  · rfl
  · exact hreceives _
  · rfl
  · rfl
  · exact hreceives _

/-- A chunk as long as the command ends the loop. -/
theorem recv_whole (hlen : data.length = prm.SERVER_COMMAND.length) (htwo : 2 ≤ data.length)
    (hbytes : s.recvBytes = 0) : Answered prm data (s.recv prm (.chunk data)) := by
  have hlt : data.length < bufSize := by
    rw [hlen]
    exact Nat.lt_succ_of_le prm.command_le
  have hzero : Received.ret (.chunk data) ≠ 0 := by
    intro h
    have hnil : data.length = 0 := (ret_eq_iff hlt.le (by decide)).mp h
    omega
  have hone : Received.ret (.chunk data) ≠ 1 := by
    intro h
    have hsingle : data.length = 1 := (ret_eq_iff hlt.le (by decide)).mp h
    omega
  have hallowed : toSize (Received.ret (.chunk data)) = prm.allowed_command_len :=
    (ret_eq_allowed_iff hlt).mpr hlen
  simp only [Handler.recv]
  rw [if_neg hzero, if_neg hone, if_pos hallowed]
  refine replies_answered hlen ?_ ?_
  · show s.recvBytes + BitVec.ofNat 32 data.length = _
    rw [hbytes]
    exact BitVec.zero_add _
  · show (s.recvBuf.store 0 data).load 0 data.length = data
    exact Memory.load_store

theorem step_whole (hlen : data.length = prm.SERVER_COMMAND.length) (errno : CInt)
    (recvBuf sendBuf : Memory Byte) :
    (connection_handler prm).step (start errno recvBuf sendBuf) (.recv (.chunk data)) =
      some ((start errno recvBuf sendBuf).recv prm (.chunk data)) := by
  have hfit : data.length ≤ (start errno recvBuf sendBuf).recvLen.toNat := by
    have hle := prm.command_le
    rw [toNat_recvLen (n := 0) rfl (Nat.zero_le _), bufSize]
    omega
  show (if data.length ≤ (start errno recvBuf sendBuf).recvLen.toNat then _ else none) = _
  rw [if_pos hfit]

/-- A chunk as long as the whole request is alone. -/
theorem eq_singleton {chunks : List (List Byte)} (hchunks : ∀ c ∈ chunks, c ≠ [])
    (hdata : data ∈ chunks) (hlen : data.length = chunks.flatten.length) : chunks = [data] := by
  have hnil : ∀ cs : List (List Byte), (∀ c ∈ cs, c ≠ []) → cs.flatten.length = 0 → cs = [] := by
    intro cs hcs hzero
    cases cs with
    | nil => rfl
    | cons c cs =>
      rw [List.flatten_cons, List.length_append] at hzero
      exact absurd (List.length_eq_zero_iff.mp (by omega)) (hcs c List.mem_cons_self)
  obtain ⟨as, bs, rfl⟩ := List.append_of_mem hdata
  rw [List.flatten_append, List.flatten_cons, List.length_append, List.length_append] at hlen
  rw [hnil as (fun c hc => hchunks c (List.mem_append_left _ hc)) (by omega),
    hnil bs (fun c hc => hchunks c (List.mem_append_right _ (List.mem_cons_of_mem _ hc)))
      (by omega)]
  rfl

/-- **Chunking**: a request as long as the command is answered if and only if it arrives in
one chunk, of at least two bytes. -/
theorem chunking (prm : Params) (chunks : List (List Byte)) (hchunks : ∀ c ∈ chunks, c ≠ [])
    (hlen : chunks.flatten.length = prm.SERVER_COMMAND.length) (s : Handler)
    (hs : (connection_handler prm).init s) :
    (∃ s', (connection_handler prm).run s (deliveries chunks) = some s' ∧
      Answered prm chunks.flatten s') ↔ chunks.length = 1 ∧ 2 ≤ prm.SERVER_COMMAND.length := by
  obtain ⟨errno, recvBuf, sendBuf, rfl⟩ := hs
  have hle := prm.command_le
  constructor
  · rintro ⟨s', hrun, hanswered⟩
    by_contra hmany
    -- a chunk as long as the command would be the only one, of one byte
    have hshort : ∀ c ∈ chunks, c.length = 1 ∨ c.length ≠ prm.SERVER_COMMAND.length := by
      intro c hc
      by_contra hwhole
      obtain ⟨hone, hwhole⟩ := not_or.mp hwhole
      have hwhole := not_not.mp hwhole
      rw [eq_singleton hchunks hc (hwhole.trans hlen.symm)] at hmany
      have hpos := prm.command_pos
      exact hmany ⟨rfl, by omega⟩
    have hlt : 0 + chunks.flatten.length < bufSize := by
      rw [Nat.zero_add, hlen]
      exact Nat.lt_succ_of_le hle
    exact hanswered.not_waiting (run_waiting hchunks hshort hlt waiting_start hrun)
  · rintro ⟨hone, htwo⟩
    obtain ⟨data, rfl⟩ := List.length_eq_one_iff.mp hone
    rw [List.flatten_singleton] at hlen ⊢
    refine ⟨(start errno recvBuf sendBuf).recv prm (.chunk data), ?_, ?_⟩
    · exact Machine.run_cons (step_whole hlen errno recvBuf sendBuf)
    · exact recv_whole hlen (hlen ▸ htwo) rfl

theorem chunking_time :
    ∃ s', (connection_handler time).run (start 0 (fun _ => 0) fun _ => 0)
      (deliveries [charBytes "TIME"]) = some s' ∧ Answered time [charBytes "TIME"].flatten s' := by
  have hchunks : ∀ c ∈ [charBytes "TIME"], c ≠ [] := by decide
  exact (chunking time [charBytes "TIME"] hchunks (by decide) _ ⟨0, _, _, rfl⟩).mpr ⟨rfl, by decide⟩

/-- The command in two chunks: the handler waits for more. -/
theorem two_chunks_unanswered :
    [charBytes "TI", charBytes "ME"].flatten = time.SERVER_COMMAND ∧
      ¬ ∃ s', (connection_handler time).run (start 0 (fun _ => 0) fun _ => 0)
        (deliveries [charBytes "TI", charBytes "ME"]) = some s' ∧
        Answered time [charBytes "TI", charBytes "ME"].flatten s' := by
  refine ⟨by decide, ?_⟩
  rintro ⟨s', hrun, hanswered⟩
  exact hanswered.not_waiting
    (run_waiting (by decide) (by decide) (by decide) waiting_start hrun)

/-! ### Sending it -/

/-- One `send` takes the whole reply, and the handler returns. -/
theorem Answered.send_reply {request : List Byte} (h : Answered prm request s) :
    s.sendBuf.load 0 (prm.reply request).length = prm.reply request ∧
      s.sendLen.toNat = (prm.reply request).length ∧
      ∃ s', (connection_handler prm).step s (.send (.taken (prm.reply request).length)) = some s' ∧
        s'.pc = .returned ∧ s'.taken = s.taken ++ prm.reply request := by
  obtain ⟨hpos, hlt, -⟩ := reply_text prm request
  have hload : s.sendBuf.load 0 (prm.reply request).length = prm.reply request := by
    rw [← h.sendBuf]
    exact Memory.load_strlen
  rw [bufSize] at hlt
  have hsend : s.sendLen.toNat = (prm.reply request).length := by
    rw [Handler.sendLen, h.serverMessageLen, h.sentBytes, BitVec.toNat_sub, BitVec.toNat_ofNat]
    show (2 ^ 64 - 0 + (prm.reply request).length % 2 ^ 64) % 2 ^ 64 = _
    omega
  refine ⟨hload, hsend, s.send (.taken (prm.reply request).length), ?_, ?_⟩
  · show step prm s (.send (.taken _)) = _
    simp only [step, h.pc, hsend]
    exact if_pos ⟨hpos, le_rfl⟩
  · -- all of it is counted
    have hone : Sent.ret (.taken (prm.reply request).length) ≠ 1 := by
      rw [Params.reply]
      split
      · rw [prm.length_ctime]
        decide
      · decide
    have hcounted : toSize (s.sentBytes + BitVec.ofNat 32 (prm.reply request).length) =
        s.serverMessageLen := by
      rw [h.sentBytes, h.serverMessageLen]
      exact (congrArg toSize (BitVec.zero_add _)).trans (toSize_ofNat (by omega))
    have hover : ¬ 0 < s.serverMessageLen -
        toSize (s.sentBytes + BitVec.ofNat 32 (prm.reply request).length) := by
      rw [hcounted, BitVec.sub_self]
      exact BitVec.lt_irrefl _
    rw [Handler.send, if_neg hone, Handler.sends]
    exact ⟨if_neg hover, congrArg (s.taken ++ ·) hload⟩

/-- A request that arrives in one chunk of at least two bytes, and its reply. -/
theorem exists_run_reply (hlen : data.length = prm.SERVER_COMMAND.length) (htwo : 2 ≤ data.length)
    (hs : (connection_handler prm).init s) :
    ∃ s', (connection_handler prm).run s
        [.recv (.chunk data), .send (.taken (prm.reply data).length)] = some s' ∧
      s'.pc = .returned ∧ s'.taken = prm.reply data := by
  obtain ⟨errno, recvBuf, sendBuf, rfl⟩ := hs
  have hanswered := recv_whole (s := start errno recvBuf sendBuf) hlen htwo rfl
  obtain ⟨-, -, s', hsend, hpc, htaken⟩ := hanswered.send_reply
  refine ⟨s', ?_, hpc, ?_⟩
  · rw [Machine.run_cons (step_whole hlen errno recvBuf sendBuf)]
    exact Machine.run_cons hsend
  · rw [htaken, recv_taken]
    rfl

end TimeServer
