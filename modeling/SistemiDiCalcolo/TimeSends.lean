/-
The loops of `send` of Lab07/03.

The server and the client send a message with the same loop: it gives `send` the beginning of
the message at every pass, and takes a result of 1 for an error and one of -1 for a number
of bytes.

* `Sender.step` — a pass of the loop;
* `handler_step` — it is a step of the handler of the server;
* `transmits_iff` — the message gets across if and only if no result is -1 or 1, and wherever
  a `send` begins the message goes on as it begins.
-/
import SistemiDiCalcolo.TimeServer

open AccessLog (Byte)
open Memory (cString strlen)

namespace TimeServer

/-- In the loop, after it, or ended with an error. -/
inductive SenderPc
  | sending
  | ended
  | failed
  deriving DecidableEq, Repr

/-- The variables of the loop, and `errno`; beside them the bytes that the socket has taken. -/
structure Sender where
  pc : SenderPc
  errno : CInt
  sentBytes : CInt
  taken : List Byte

namespace Sender

/-- How many bytes `send` is given. -/
def sendLen (len : SizeT) (s : Sender) : SizeT := len - toSize s.sentBytes

/-- The test of the loop. -/
def sends (len : SizeT) (s : Sender) : Sender :=
  { s with pc := if 0 < s.sendLen len then .sending else .ended }

/-- What `send` takes from the beginning of the message, or leaves in `errno`. -/
def sent (buf : Memory Byte) (s : Sender) : Sent → Sender
  -- the bytes are those at `send_buf`, whatever has been sent before
  | .taken n => { s with taken := s.taken ++ buf.load 0 n }
  | .error errno => { s with errno := errno }

/-- The body of the loop. -/
def send (buf : Memory Byte) (len : SizeT) (s : Sender) (r : Sent) : Sender :=
  let s := s.sent buf r
  -- the result is compared with 1, so an error is added to the counter
  if r.ret = 1 then
    if s.errno = EINTR then s.sends len else { s with pc := .failed }
  else sends len { s with sentBytes := s.sentBytes + r.ret }

/-- `sent_bytes += ret` is not an `int` any more: C gives it no meaning. -/
def Overflows (sentBytes : CInt) (r : Sent) : Prop := r.ret ≠ 1 ∧ sentBytes.saddOverflow r.ret

instance (sentBytes : CInt) (r : Sent) : Decidable (Overflows sentBytes r) :=
  inferInstanceAs (Decidable (_ ∧ _))

/-- The next `send`. -/
def step (buf : Memory Byte) (len : SizeT) (s : Sender) (r : Sent) : Option Sender :=
  match s.pc with
  | .sending =>
    if Overflows s.sentBytes r then none
    else
      match r with
      | .taken n => if 0 < n ∧ n ≤ (s.sendLen len).toNat then some (s.send buf len r) else none
      | .error _ => some (s.send buf len r)
  | .ended | .failed => none

/-- Nothing has been sent. -/
def start (len : SizeT) (errno : CInt) : Sender := sends len ⟨.sending, errno, 0, []⟩

end Sender

/-- The loop, on a message of `len` bytes. -/
def sendLoop (buf : Memory Byte) (len : SizeT) : Machine Sender Sent where
  init s := ∃ errno, s = .start len errno
  step := Sender.step buf len

/-- No result is -1 or 1, and the bytes that each `send` takes, which are the first ones of the
message, are those that come next. -/
def Restarts (msg : List Byte) : List Byte → List Sent → Prop
  | rest, [] => rest = []
  | rest, .taken n :: rets =>
    2 ≤ n ∧ n ≤ rest.length ∧ rest.take n = msg.take n ∧ Restarts msg (rest.drop n) rets
  | _, .error _ :: _ => False

/-! ### Passes -/

section Sender

variable {buf : Memory Byte} {len : SizeT} {s s' : Sender} {r : Sent} {rets : List Sent}
  {msg rest : List Byte} {n L : ℕ}

theorem toInt_ofNat_le (n : ℕ) : (BitVec.ofNat 32 n : CInt).toInt ≤ n := by
  rw [BitVec.toInt_ofNat', Int.bmod_def]
  split_ifs <;> omega

/-- The subtraction of a `size_t` and an `int`. -/
theorem Sender.toNat_sendLen_eq :
    ((s.sendLen (BitVec.ofNat 64 L)).toNat : ℤ) = (L - s.sentBytes.toInt) % 2 ^ 64 := by
  have hsize : (toSize s.sentBytes).toNat = (s.sentBytes.toInt % 2 ^ 64).toNat := by
    rw [toSize, BitVec.signExtend, BitVec.toNat_ofInt]
    rfl
  rw [sendLen, BitVec.toNat_sub, hsize, BitVec.toNat_ofNat]
  omega

/-- What is asked for, as long as no more has been counted than there is. -/
theorem Sender.toNat_sendLen (hL : L < 2 ^ 31) (hle : s.sentBytes.toInt ≤ L) :
    ((s.sendLen (BitVec.ofNat 64 L)).toNat : ℤ) = L - s.sentBytes.toInt := by
  have hlow := BitVec.le_toInt s.sentBytes
  rw [toNat_sendLen_eq]
  omega

/-- The loop is over when the whole length has been counted. -/
theorem Sender.sentBytes_of_not_lt (hL : L < 2 ^ 31) (h : ¬ 0 < s.sendLen (BitVec.ofNat 64 L)) :
    s.sentBytes.toInt = L := by
  have hlow := BitVec.le_toInt s.sentBytes
  have hhigh := BitVec.toInt_lt (x := s.sentBytes)
  have hzero : (s.sendLen (BitVec.ofNat 64 L)).toNat = 0 := Nat.eq_zero_of_not_pos h
  have hsub := toNat_sendLen_eq (s := s) (L := L)
  omega

theorem Sender.not_lt_of_ended (h : (s.sends len).pc = .ended) :
    ¬ 0 < (s.sends len).sendLen len := by
  have hsame : (s.sends len).sendLen len = s.sendLen len := rfl
  intro hlt
  rw [hsame] at hlt
  rw [sends, if_pos hlt] at h
  cases h

/-- How many bytes have been taken that are not counted. -/
def Sender.slack (s : Sender) : ℤ := s.taken.length - s.sentBytes.toInt

@[simp] theorem Sender.taken_sends : (s.sends len).taken = s.taken := rfl

@[simp] theorem Sender.sentBytes_sends : (s.sends len).sentBytes = s.sentBytes := rfl

/-- Some bytes are taken and counted. -/
def Sender.counts (buf : Memory Byte) (len : SizeT) (s : Sender) (n : ℕ) : Sender :=
  sends len { s with
    sentBytes := s.sentBytes + BitVec.ofNat 32 n
    taken := s.taken ++ buf.load 0 n }

/-- What a pass can do: take some bytes and count them, or something that is not counted
right. -/
inductive SenderStep (buf : Memory Byte) (len : SizeT) (s : Sender) : Sent → Sender → Prop
  | counts (n : ℕ) : n ≠ 1 → 0 < n → n ≤ (s.sendLen len).toNat →
      ¬ s.sentBytes.saddOverflow (BitVec.ofNat 32 n) →
      SenderStep buf len s (.taken n) (s.counts buf len n)
  | slips (r : Sent) (s' : Sender) : s.taken <+: s'.taken → s.slack < s'.slack →
      (s'.pc = .ended → ¬ 0 < s'.sendLen len) → SenderStep buf len s r s'

/-- The counter has gone back. -/
theorem SenderStep.back (htaken : s'.taken = s.taken)
    (hbytes : s'.sentBytes.toInt = s.sentBytes.toInt + -1) :
    SenderStep buf len s r (s'.sends len) := by
  refine .slips r _ ?_ ?_ Sender.not_lt_of_ended
  · rw [Sender.taken_sends, htaken]
  · rw [Sender.slack, Sender.slack, Sender.taken_sends, Sender.sentBytes_sends, htaken, hbytes]
    omega

theorem Sender.step_cases (h : s.step buf len r = some s') :
    s.pc = .sending ∧ SenderStep buf len s r s' := by
  cases hpc : s.pc with
  | ended | failed =>
    simp only [step, hpc] at h
    cases h
  | sending =>
    refine ⟨rfl, ?_⟩
    simp only [step, hpc] at h
    split_ifs at h with hover
    cases r with
    | taken n =>
      simp only at h
      split_ifs at h with hn
      cases h
      by_cases hone : (Sent.taken n).ret = 1
      · -- one byte is taken for an error
        have hslips : ∀ pc, s.slack < slack { s.sent buf (.taken n) with pc := pc } := by
          intro pc
          show (s.taken.length : ℤ) - s.sentBytes.toInt
            < (s.taken ++ buf.load 0 n).length - s.sentBytes.toInt
          rw [List.length_append, Memory.length_load]
          omega
        rw [send, if_pos hone]
        split_ifs
        · exact .slips _ _ (List.prefix_append _ _) (hslips _) not_lt_of_ended
        · exact .slips _ _ (List.prefix_append _ _) (hslips _) nofun
      · rw [send, if_neg hone]
        refine .counts n (fun heq => hone ?_) hn.1 hn.2 fun hsum => hover ⟨hone, hsum⟩
        rw [heq]
        rfl
    | error errno =>
      -- the counter goes back
      cases h
      have hone : (Sent.error errno).ret ≠ 1 := show (-1 : CInt) ≠ 1 by decide
      have hsum := BitVec.toInt_add_of_not_saddOverflow fun hsum => hover ⟨hone, hsum⟩
      have hminus : (Sent.error errno).ret.toInt = -1 := show (-1 : CInt).toInt = -1 by decide
      rw [send, if_neg hone]
      refine .back rfl ?_
      rw [← hminus]
      exact hsum

theorem Sender.not_overflows (h : s.step buf len r = some s') : ¬ Overflows s.sentBytes r := by
  intro hover
  simp only [step, if_pos hover] at h
  split at h <;> cases h

theorem Sender.slack_counts (hn : ¬ s.sentBytes.saddOverflow (BitVec.ofNat 32 n)) :
    s.slack ≤ (s.counts buf len n).slack := by
  have hle := toInt_ofNat_le n
  rw [counts, slack, slack, taken_sends, sentBytes_sends, List.length_append, Memory.length_load,
    BitVec.toInt_add_of_not_saddOverflow hn]
  generalize (BitVec.ofNat 32 n : CInt).toInt = ret at hle ⊢
  omega

/-- What is not counted right is not made up for, and what has been taken stays. -/
theorem Sender.run_slack (h : (sendLoop buf len).run s rets = some s') :
    s.slack ≤ s'.slack ∧ s.taken <+: s'.taken := by
  refine Machine.run_invariant (I := fun u => s.slack ≤ u.slack ∧ s.taken <+: u.taken) ?_ h
    ⟨le_rfl, List.prefix_rfl⟩
  rintro u r u' ⟨hslack, htaken⟩ hstep
  cases (step_cases hstep).2 with
  | counts n _ _ _ hsum =>
    exact ⟨hslack.trans (slack_counts hsum), htaken.trans (List.prefix_append _ _)⟩
  | slips _ _ hprefix hlt _ => exact ⟨hslack.trans hlt.le, htaken.trans hprefix⟩

/-- A loop that is over has counted the whole length. -/
theorem Sender.run_ended (hL : L < 2 ^ 31)
    (h : (sendLoop buf (BitVec.ofNat 64 L)).run s rets = some s')
    (hs : s.pc = .ended → s.sentBytes.toInt = L) (hpc : s'.pc = .ended) :
    s'.sentBytes.toInt = L := by
  refine Machine.run_invariant (I := fun u => u.pc = .ended → u.sentBytes.toInt = (L : ℤ))
    ?_ h hs hpc
  intro u r u' _ hstep hover
  cases (step_cases hstep).2 with
  | counts n _ _ _ _ => exact sentBytes_of_not_lt hL (not_lt_of_ended hover)
  | slips _ _ _ _ hlen => exact sentBytes_of_not_lt hL (hlen hover)

/-! ### Transmissions -/

/-- All that has been taken is counted, and `rest` is left of the message. -/
structure Sender.Exact (msg rest : List Byte) (s : Sender) : Prop where
  msg : s.taken ++ rest = msg
  slack : s.slack = 0
  pc : s.pc = if rest = [] then .ended else .sending

theorem Sender.Exact.sentBytes (h : s.Exact msg rest) : s.sentBytes.toInt = s.taken.length := by
  have hslack := h.slack
  rw [Sender.slack] at hslack
  omega

/-- The test of the loop looks at what is left. -/
theorem Sender.exact_sends (hL : msg.length < 2 ^ 31) (hmsg : s.taken ++ rest = msg)
    (hslack : s.slack = 0) : (s.sends (BitVec.ofNat 64 msg.length)).Exact msg rest := by
  have hlen := congrArg List.length hmsg
  rw [List.length_append] at hlen
  have hbytes : s.sentBytes.toInt = s.taken.length := by
    rw [slack] at hslack
    omega
  have hask := toNat_sendLen (s := s) hL (by omega)
  refine ⟨hmsg, hslack, ?_⟩
  show (if 0 < s.sendLen (BitVec.ofNat 64 msg.length) then SenderPc.sending else .ended) = _
  by_cases hrest : rest = []
  · rw [hrest, List.length_nil] at hlen
    rw [if_pos hrest, if_neg]
    show ¬ 0 < (s.sendLen (BitVec.ofNat 64 msg.length)).toNat
    omega
  · have hpos := List.length_pos_iff.mpr hrest
    rw [if_neg hrest, if_pos]
    show 0 < (s.sendLen (BitVec.ofNat 64 msg.length)).toNat
    omega

/-- A pass that takes the bytes that come next. -/
theorem Sender.Exact.step_taken (hL : msg.length < 2 ^ 31) (hbuf : buf.load 0 msg.length = msg)
    (h : s.Exact msg rest) (htwo : 2 ≤ n) (hle : n ≤ rest.length)
    (hnext : rest.take n = msg.take n) :
    s.step buf (BitVec.ofNat 64 msg.length) (.taken n)
        = some (s.counts buf (BitVec.ofNat 64 msg.length) n) ∧
      (s.counts buf (BitVec.ofNat 64 msg.length) n).Exact msg (rest.drop n) := by
  have hlen := congrArg List.length h.msg
  rw [List.length_append] at hlen
  have hbytes := h.sentBytes
  have hret : (BitVec.ofNat 32 n : CInt).toInt = n := toInt_ofNat_of_lt (by omega)
  have hover : ¬ s.sentBytes.saddOverflow (BitVec.ofNat 32 n) := by
    rw [BitVec.saddOverflow, hret, hbytes, Bool.or_eq_true, decide_eq_true_eq, decide_eq_true_eq]
    omega
  have hload : buf.load 0 n = rest.take n := by
    have htake : (buf.load 0 msg.length).take n = buf.load 0 n := Memory.take_load (by omega)
    rw [hnext, ← htake, hbuf]
  have hne : rest ≠ [] := by
    rintro rfl
    rw [List.length_nil] at hle
    omega
  have hone : (Sent.taken n).ret ≠ 1 := by
    intro hone
    have hn : n = 1 := (ofNat_inj_of_lt (by omega) (by omega)).mp hone
    omega
  constructor
  · have hask := toNat_sendLen (s := s) hL (by omega)
    have hpc := h.pc
    rw [if_neg hne] at hpc
    simp only [step, hpc]
    rw [if_neg fun hsum => hover hsum.2, if_pos ⟨by omega, by omega⟩, send, if_neg hone]
    rfl
  · refine exact_sends hL ?_ ?_
    · show s.taken ++ buf.load 0 n ++ rest.drop n = msg
      rw [hload, List.append_assoc, List.take_append_drop]
      exact h.msg
    · have hslack := h.slack
      rw [Sender.slack] at hslack
      show ((s.taken ++ buf.load 0 n).length : ℤ) - (s.sentBytes + BitVec.ofNat 32 n).toInt = 0
      rw [BitVec.toInt_add_of_not_saddOverflow hover, hret, List.length_append,
        Memory.length_load]
      omega

/-- A sender that has counted all of the message right is over only when it has sent it. -/
theorem Sender.restarts_of_run (hL : msg.length < 2 ^ 31) (hbuf : buf.load 0 msg.length = msg)
    (hs : s.Exact msg rest)
    (h : (sendLoop buf (BitVec.ofNat 64 msg.length)).run s rets = some s') (hpc : s'.pc = .ended)
    (htaken : s'.taken = msg) : Restarts msg rest rets := by
  induction rets generalizing s rest with
  | nil =>
    obtain rfl : s = s' := Option.some.inj h
    have hover := hs.pc
    rw [hpc] at hover
    split_ifs at hover with hrest
    exact hrest
  | cons r rets ih =>
    obtain ⟨u, hu, hrun⟩ := Machine.run_cons_eq_some.mp h
    obtain ⟨hslack, hprefix⟩ := run_slack hrun
    have hlen := congrArg List.length hs.msg
    rw [List.length_append] at hlen
    obtain ⟨hsending, hstep⟩ := step_cases hu
    cases hstep with
    | counts n hone hpos hle hover =>
      -- what has been taken is a part of the message
      have hask := toNat_sendLen (s := s) hL (by rw [hs.sentBytes]; omega)
      rw [hs.sentBytes] at hask
      have hle' : n ≤ rest.length := by omega
      have hload : buf.load 0 n = msg.take n := by
        have htake : (buf.load 0 msg.length).take n = buf.load 0 n := Memory.take_load (by omega)
        rw [← htake, hbuf]
      have hnext : rest.take n = msg.take n := by
        rw [htaken, ← hs.msg] at hprefix
        have hrest : buf.load 0 n <+: rest := (List.prefix_append_right_inj _).mp hprefix
        rw [← hload, List.prefix_iff_eq_take.mp hrest, Memory.length_load]
      obtain ⟨-, hexact⟩ := hs.step_taken hL hbuf (by omega) hle' hnext
      exact ⟨by omega, hle', hnext, ih hexact hrun⟩
    | slips _ _ _ hlt _ =>
      -- it is never made up for
      have hend : s'.sentBytes.toInt = msg.length := by
        refine run_ended hL h (fun hover => ?_) hpc
        rw [hsending] at hover
        cases hover
      have hzero := hs.slack
      have hslack' : s'.slack = 0 := by
        rw [slack, htaken, hend]
        omega
      omega

/-- **A transmission**: the message gets across if and only if no result is -1 or 1, and
wherever a `send` begins the message goes on as it begins. -/
theorem Sender.transmits_iff (hL : msg.length < 2 ^ 31) (hbuf : buf.load 0 msg.length = msg)
    (hs : s.Exact msg rest) :
    (∃ s', (sendLoop buf (BitVec.ofNat 64 msg.length)).run s rets = some s' ∧ s'.pc = .ended ∧
      s'.taken = msg) ↔ Restarts msg rest rets := by
  constructor
  · rintro ⟨s', hrun, hpc, htaken⟩
    exact restarts_of_run hL hbuf hs hrun hpc htaken
  · intro h
    induction rets generalizing s rest with
    | nil =>
      have hrest : rest = [] := h
      refine ⟨s, rfl, ?_, ?_⟩
      · rw [hs.pc, if_pos hrest]
      · rw [← hs.msg, hrest, List.append_nil]
    | cons r rets ih =>
      cases r with
      | error errno => exact h.elim
      | taken n =>
        obtain ⟨htwo, hle, hnext, hrest⟩ := h
        obtain ⟨hstep, hexact⟩ := hs.step_taken hL hbuf htwo hle hnext
        obtain ⟨s', hrun, hend⟩ := ih hexact hrest
        exact ⟨s', by rw [Machine.run_cons hstep, hrun], hend⟩

end Sender

/-! ### The reply of the server -/

section Handler

variable {prm : Params} {s s' : Handler} {r : Sent} {rets : List Sent} {msg : List Byte}

/-- The loop of `send` in the handler. -/
def Handler.sender (s : Handler) : Sender where
  pc :=
    match s.pc with
    | .sending => .sending
    | .returned => .ended
    | .receiving | .failed => .failed
  errno := s.errno
  sentBytes := s.sentBytes
  taken := s.taken

theorem Handler.sender_sends : s.sends.sender = s.sender.sends s.serverMessageLen := by
  have hlen : s.sender.sendLen s.serverMessageLen = s.sendLen := rfl
  rw [Handler.sends, Sender.sends, hlen]
  split_ifs <;> rfl

theorem Handler.sender_sent : (s.sent r).sender = s.sender.sent s.sendBuf r := by
  cases r <;> rfl

theorem Handler.sent_message :
    (s.sent r).sendBuf = s.sendBuf ∧ (s.sent r).serverMessageLen = s.serverMessageLen := by
  cases r <;> exact ⟨rfl, rfl⟩

theorem Handler.sender_send :
    (s.send r).sender = s.sender.send s.sendBuf s.serverMessageLen r := by
  have hlen : s.serverMessageLen = (s.sent r).serverMessageLen := sent_message.2.symm
  rw [Handler.send, Sender.send, ← sender_sent, hlen]
  generalize s.sent r = u
  have herrno : u.sender.errno = u.errno := rfl
  simp only [herrno]
  split_ifs
  · exact sender_sends
  · rfl
  · exact sender_sends (s := { u with sentBytes := u.sentBytes + r.ret })

/-- A pass of the loop is a step of the handler. -/
theorem handler_step (prm : Params) (hover : ¬ Sender.Overflows s.sentBytes r) :
    s.sender.step s.sendBuf s.serverMessageLen r
      = (step prm s (.send r)).map Handler.sender := by
  have hover' : ¬ Sender.Overflows s.sender.sentBytes r := hover
  cases hpc : s.pc with
  | receiving | returned | failed =>
    simp only [step, hpc, Option.map_none, Sender.step, Handler.sender]
  | sending =>
    have hsender : s.sender.pc = .sending := by simp only [Handler.sender, hpc]
    cases r with
    | error errno =>
      simp only [step, hpc, Sender.step, hsender, if_neg hover', Option.map_some,
        Handler.sender_send]
    | taken n =>
      have hlen : s.sender.sendLen s.serverMessageLen = s.sendLen := rfl
      simp only [step, hpc, Sender.step, hsender, if_neg hover', hlen]
      split_ifs
      · rw [Option.map_some, Handler.sender_send]
      · rfl

/-- It leaves the message alone. -/
theorem handler_step_message (h : step prm s (.send r) = some s') :
    s'.sendBuf = s.sendBuf ∧ s'.serverMessageLen = s.serverMessageLen := by
  have hsend : (s.send r).sendBuf = s.sendBuf ∧
      (s.send r).serverMessageLen = s.serverMessageLen := by
    rw [Handler.send]
    split_ifs <;> exact Handler.sent_message
  cases hpc : s.pc with
  | receiving | returned | failed =>
    simp only [step, hpc] at h
    cases h
  | sending =>
    cases r with
    | error errno =>
      simp only [step, hpc] at h
      obtain rfl := Option.some.inj h
      exact hsend
    | taken n =>
      simp only [step, hpc] at h
      split_ifs at h
      obtain rfl := Option.some.inj h
      exact hsend

/-- C gives a meaning to the step. -/
def Defined (s : Handler) : Event → Prop
  | .send r => ¬ Sender.Overflows s.sentBytes r
  | .recv _ => True

/-- The run of the loop of `send` in the handler. -/
theorem handler_run {P : Sender → Prop} :
    ((connection_handler prm).Along Defined s (rets.map .send) ∧
      ∃ s', (connection_handler prm).run s (rets.map .send) = some s' ∧ P s'.sender) ↔
    ∃ u, (sendLoop s.sendBuf s.serverMessageLen).run s.sender rets = some u ∧ P u := by
  induction rets generalizing s with
  | nil =>
    refine ⟨?_, ?_⟩
    · rintro ⟨-, s', hrun, hP⟩
      obtain rfl : s = s' := Option.some.inj hrun
      exact ⟨_, rfl, hP⟩
    · rintro ⟨u, hrun, hP⟩
      obtain rfl : s.sender = u := Option.some.inj hrun
      exact ⟨trivial, s, rfl, hP⟩
  | cons r rets ih =>
    constructor
    · rintro ⟨⟨hdef, halong⟩, s', hrun, hP⟩
      obtain ⟨t, ht, hrest⟩ := Machine.run_cons_eq_some.mp hrun
      have hstep : s.sender.step s.sendBuf s.serverMessageLen r = some t.sender := by
        rw [handler_step prm hdef, show step prm s (.send r) = some t from ht, Option.map_some]
      obtain ⟨hbuf, hlen⟩ := handler_step_message ht
      obtain ⟨u, hu, hPu⟩ := ih.mp ⟨halong t ht, s', hrest, hP⟩
      rw [hbuf, hlen] at hu
      exact ⟨u, Machine.run_cons_eq_some.mpr ⟨_, hstep, hu⟩, hPu⟩
    · rintro ⟨u, hrun, hP⟩
      obtain ⟨v, hv, hrest⟩ := Machine.run_cons_eq_some.mp hrun
      have hdef : ¬ Sender.Overflows s.sender.sentBytes r := Sender.not_overflows hv
      have hstep : s.sender.step s.sendBuf s.serverMessageLen r = some v := hv
      rw [handler_step prm hdef] at hstep
      obtain ⟨t, ht, rfl⟩ := Option.map_eq_some_iff.mp hstep
      obtain ⟨hbuf, hlen⟩ := handler_step_message ht
      obtain ⟨halong, s', hrun', hPs⟩ := ih.mpr ⟨u, by rw [hbuf, hlen]; exact hrest, hP⟩
      have ht' : (connection_handler prm).step s (.send r) = some t := ht
      have hdef' : Defined s (.send r) := hdef
      rw [List.map_cons, Machine.along_cons ht', Machine.run_cons ht']
      exact ⟨⟨hdef', halong⟩, s', hrun', hPs⟩

/-- The handler is about to send `msg`. -/
structure Replying (msg : List Byte) (s : Handler) : Prop where
  sends : s.sends = s
  sendBuf : s.sendBuf.load 0 msg.length = msg
  serverMessageLen : s.serverMessageLen = BitVec.ofNat 64 msg.length
  sentBytes : s.sentBytes = 0
  taken : s.taken = []

/-- The handler sends `msg` when `send` gives `rets`: its loop is over after the last of them, and
the socket has taken the message. -/
def Handler.Transmits (prm : Params) (s : Handler) (msg : List Byte) (rets : List Sent) : Prop :=
  (connection_handler prm).Along Defined s (rets.map .send) ∧
    ∃ s', (connection_handler prm).run s (rets.map .send) = some s' ∧ s'.pc = .returned ∧
      s'.taken = msg

/-- What the handler is about to send is one of its two replies. -/
theorem replies_replying (htaken : s.taken = []) :
    Replying (if s.isCommand prm then prm.ctime else INVALID_REQUEST) (s.replies prm) := by
  generalize htext : (if s.isCommand prm then prm.ctime else INVALID_REQUEST) = text
  have hfits : text.length < bufSize ∧ 0 ∉ text := by
    rw [← htext]
    split
    · rw [prm.length_ctime]
      exact ⟨by decide, prm.zero_notMem_ctime⟩
    · decide
  have hlen : strlen bufSize (s.sendBuf.store 0 (text ++ [0])) = text.length := by
    rw [strlen, Memory.cString_store_of_notMem hfits.1 hfits.2]
  simp only [Handler.replies, htext, hlen]
  refine ⟨rfl, ?_, rfl, rfl, htaken⟩
  show (s.sendBuf.store 0 (text ++ [0])).load 0 text.length = text
  exact Memory.load_store_left

/-- **The reply loop.** -/
theorem handler_transmits_iff (hlen : msg.length < bufSize) (hs : Replying msg s) :
    s.Transmits prm msg rets ↔ Restarts msg msg rets := by
  have hL : msg.length < 2 ^ 31 := hlen.trans (by decide)
  have hzero : s.sender.slack = 0 := by
    show (s.taken.length : ℤ) - s.sentBytes.toInt = 0
    rw [hs.taken, hs.sentBytes]
    decide
  have hmsg : s.sender.taken ++ msg = msg := congrArg (· ++ msg) hs.taken
  have hexact := Sender.exact_sends hL hmsg hzero
  rw [← hs.serverMessageLen, ← Handler.sender_sends, hs.sends] at hexact
  rw [← Sender.transmits_iff hL hs.sendBuf hexact, ← hs.serverMessageLen]
  refine Iff.trans (and_congr_right fun _ => exists_congr fun s' => and_congr_right fun _ => ?_)
    (handler_run (P := fun u => u.pc = .ended ∧ u.taken = msg))
  have hpc : s'.pc = .returned ↔ s'.sender.pc = .ended := by
    cases hpc : s'.pc <;> simp [Handler.sender, hpc]
  exact and_congr_left fun _ => hpc

end Handler

/-! ### Messages -/

section Messages

variable {b : Byte} {tail rest : List Byte} {rets : List Sent}

/-- Where the first byte of the message does not come, no `send` can begin. -/
theorem restarts_of_notMem (hb : b ∉ rest) :
    Restarts (b :: tail) rest rets ↔ rest = [] ∧ rets = [] := by
  cases rets with
  | nil => exact (and_iff_left rfl).symm
  | cons r rets =>
    refine iff_of_false (fun h => ?_) fun h => List.cons_ne_nil _ _ h.2
    cases r with
    | error errno => exact h
    | taken n =>
      obtain ⟨htwo, -, hnext, -⟩ := h
      obtain ⟨k, rfl⟩ := Nat.exists_eq_add_of_le' htwo
      refine hb (List.mem_of_mem_take (i := k + 2) ?_)
      rw [hnext]
      exact List.mem_cons_self

/-- A message whose first byte does not come again has to be taken by one `send`. -/
theorem restarts_iff_whole (hb : b ∉ tail) :
    Restarts (b :: tail) (b :: tail) rets ↔
      tail ≠ [] ∧ rets = [.taken (b :: tail).length] := by
  cases rets with
  | nil => exact iff_of_false (List.cons_ne_nil _ _) fun h => (List.cons_ne_nil _ _) h.2.symm
  | cons r rets =>
    cases r with
    | error errno => exact iff_of_false id nofun
    | taken n =>
      have hdrop : 2 ≤ n → b ∉ (b :: tail).drop n := by
        intro htwo hmem
        obtain ⟨k, rfl⟩ := Nat.exists_eq_add_of_le' (Nat.one_le_of_lt htwo)
        exact hb (List.mem_of_mem_drop (i := k) hmem)
      have hpos : tail ≠ [] ↔ 0 < tail.length := List.length_pos_iff.symm
      constructor
      · rintro ⟨htwo, hle, -, hrest⟩
        obtain ⟨hnil, rfl⟩ := (restarts_of_notMem (hdrop htwo)).mp hrest
        have hge := List.drop_eq_nil_iff.mp hnil
        obtain rfl : n = (b :: tail).length := le_antisymm hle hge
        refine ⟨hpos.mpr ?_, rfl⟩
        rw [List.length_cons] at htwo
        omega
      · rintro ⟨htail, heq⟩
        obtain ⟨hn, rfl⟩ := List.cons.inj heq
        obtain rfl := Sent.taken.inj hn
        have htwo : 2 ≤ (b :: tail).length := Nat.succ_le_succ (hpos.mp htail)
        exact ⟨htwo, le_rfl, rfl, (restarts_of_notMem (hdrop htwo)).mpr ⟨List.drop_length, rfl⟩⟩

end Messages

end TimeServer
