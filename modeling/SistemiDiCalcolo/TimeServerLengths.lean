/-
The lengths that the TIME server of Lab07/03 asks `recv` for.

`recv_bytes` is an `int` to which every result is added, but for a result of 1, which the
loop takes for an error; it is subtracted from a `size_t`.

* `Within` — the counter is between 0 and the size of the buffer, and the next `recv` is
  asked for what is left of it;
* `lengths_within_iff` — it is so all along a run if and only if no `recv` returns -1, nor a
  single byte while `errno` is `EINTR`.
-/
import SistemiDiCalcolo.TimeServerChunks

open AccessLog (Byte)

namespace TimeServer

/-- How many bytes have come. -/
def Received.length : Received → ℕ
  | .chunk data => data.length
  | .error _ => 0

def bytesReceived (rs : List Received) : ℕ := (rs.map Received.length).sum

/-- After `n` bytes the counter is in its range, and the next `recv` is asked for at most what is
left of the buffer. -/
def Within (n : ℕ) (s : Handler) : Prop :=
  0 ≤ s.recvBytes.toInt ∧ s.recvBytes.toInt ≤ bufSize ∧
    (s.pc = .receiving → s.recvLen.toNat + n ≤ bufSize)

/-- A result that is not miscounted: not -1, and not a single byte while `errno` is `EINTR`. -/
def Counted (errno : CInt) : Received → Prop
  | .chunk data => errno = EINTR → data.length ≠ 1
  | .error _ => False

section Lengths

variable {prm : Params} {s s' : Handler} {r : Received} {rs : List Received} {n k : ℕ}
  {errno : CInt} {data : List Byte}

/-- The counter counts what has come. -/
structure Sound (errno : CInt) (n : ℕ) (s : Handler) : Prop where
  errno : s.errno = errno
  exists_count : ∃ k, k ≤ bufSize ∧ s.recvBytes = BitVec.ofNat 32 k ∧
    (s.pc = .receiving → k = n ∧ k < bufSize)

theorem toInt_of_le (hk : k ≤ bufSize) : (BitVec.ofNat 32 k : CInt).toInt = k :=
  toInt_ofNat_of_lt (hk.trans_lt (by decide))

theorem Sound.within (hs : Sound errno n s) : Within n s := by
  obtain ⟨k, hk, hbytes, hcount⟩ := hs.exists_count
  have hint : s.recvBytes.toInt = k := by rw [hbytes, toInt_of_le hk]
  refine ⟨by omega, by omega, fun hpc => ?_⟩
  obtain ⟨rfl, hlt⟩ := hcount hpc
  rw [toNat_recvLen hbytes hk]
  omega

theorem sends_pc_ne : s.sends.pc ≠ .receiving := by
  show (if 0 < s.sendLen then Pc.sending else .returned) ≠ .receiving
  split_ifs <;> exact nofun

/-- The reply does not touch the counter. -/
theorem replies_recvBytes : (s.replies prm).recvBytes = s.recvBytes ∧
    (s.replies prm).errno = s.errno ∧ (s.replies prm).pc ≠ .receiving :=
  ⟨rfl, rfl, sends_pc_ne⟩

theorem Sound.replies (herrno : s.errno = errno) (hbytes : s.recvBytes = BitVec.ofNat 32 k)
    (hk : k ≤ bufSize) : Sound errno n (s.replies prm) := by
  obtain ⟨hsame, herr, hpc⟩ := @replies_recvBytes prm s
  exact ⟨herr.trans herrno, k, hk, hsame.trans hbytes, fun h => absurd h hpc⟩

theorem Sound.receives (herrno : s.errno = errno) (hbytes : s.recvBytes = BitVec.ofNat 32 k)
    (hk : k ≤ bufSize) (hn : k = n) : Sound errno n (s.receives prm) := by
  rcases Nat.lt_or_eq_of_le hk with hlt | hfull
  · rw [receives_eq hbytes hlt]
    exact ⟨herrno, k, hk, hbytes, fun _ => ⟨hn, hlt⟩⟩
  · have hlen : ¬ 0 < s.recvLen := by
      rw [BitVec.lt_def, toNat_recvLen hbytes hk, hfull, Nat.sub_self]
      exact Nat.lt_irrefl 0
    rw [Handler.receives, if_neg hlen]
    exact replies herrno hbytes hk

/-- A step of the loop of `recv`. -/
theorem step_recv (h : step prm s (.recv r) = some s') :
    s.pc = .receiving ∧ r.length ≤ s.recvLen.toNat ∧ s' = s.recv prm r := by
  cases hpc : s.pc with
  | sending | returned | failed =>
    cases r <;> simp only [step, hpc] at h <;> cases h
  | receiving =>
    cases r with
    | error errno =>
      simp only [step, hpc] at h
      exact ⟨rfl, Nat.zero_le _, (Option.some.inj h).symm⟩
    | chunk data =>
      simp only [step, hpc] at h
      split_ifs at h with hle
      exact ⟨rfl, hle, (Option.some.inj h).symm⟩

/-- A result that is not miscounted. -/
theorem Sound.step (hs : Sound errno n s) (hr : Counted errno r)
    (h : step prm s (.recv r) = some s') : Sound errno (n + r.length) s' := by
  obtain ⟨hpc, hle, rfl⟩ := step_recv h
  obtain ⟨k, hk, hbytes, hcount⟩ := hs.exists_count
  obtain ⟨rfl, hlt⟩ := hcount hpc
  cases r with
  | error errno => exact hr.elim
  | chunk data =>
    have hle : data.length ≤ s.recvLen.toNat := hle
    rw [toNat_recvLen hbytes hk] at hle
    have hdata : data.length ≤ bufSize := hle.trans (Nat.sub_le _ _)
    have hfailed : Sound errno (k + data.length) { s.received (.chunk data) with pc := .failed } :=
      ⟨hs.errno, k, hk, hbytes, nofun⟩
    simp only [Handler.recv]
    split_ifs with hzero hone heintr hallowed
    · exact hfailed
    · -- a single byte: it ends the program
      have hlen : data.length = 1 := (ret_eq_iff hdata (k := 1) (by decide)).mp hone
      exact absurd hlen (hr (hs.errno.symm.trans heintr))
    · exact hfailed
    all_goals
      have hsum : s.recvBytes + Received.ret (.chunk data)
          = BitVec.ofNat 32 (k + data.length) := by
        rw [hbytes, Received.ret, BitVec.ofNat_add]
      have hroom : k + data.length ≤ bufSize := by omega
    · exact .replies hs.errno hsum hroom
    · exact .receives hs.errno hsum hroom rfl

theorem receives_recvBytes : (s.receives prm).recvBytes = s.recvBytes := by
  rw [Handler.receives]
  split_ifs <;> rfl

/-- -1 is taken for a number of bytes. -/
theorem recv_error (e : CInt) : s.recv prm (.error e)
    = Handler.receives prm { s with errno := e, recvBytes := s.recvBytes + -1 } := by
  have hlen := prm.command_le
  have hzero : (Received.error e).ret ≠ 0 := show (-1 : CInt) ≠ 0 by decide
  have hone : (Received.error e).ret ≠ 1 := show (-1 : CInt) ≠ 1 by decide
  have hallowed : toSize (Received.error e).ret ≠ prm.allowed_command_len := by
    intro h
    have hnat := congrArg BitVec.toNat h
    have hminus : (toSize (Received.error e).ret).toNat = 2 ^ 64 - 1 :=
      show (toSize (-1)).toNat = 2 ^ 64 - 1 by decide
    rw [hminus, Params.allowed_command_len, BitVec.toNat_ofNat] at hnat
    omega
  rw [Handler.recv, if_neg hzero, if_neg hone, if_neg hallowed]
  rfl

/-- The counter is behind: `recv` is asked for more than what is left. -/
theorem not_within_of_behind (hbytes : s.recvBytes = BitVec.ofNat 32 k) (hk : k < bufSize)
    (hn : k < n) : ¬ Within n (s.receives prm) := by
  rw [receives_eq hbytes hk]
  rintro ⟨-, -, hask⟩
  have hlen : s.recvLen.toNat = bufSize - k := toNat_recvLen hbytes hk.le
  have hle : s.recvLen.toNat + n ≤ bufSize := hask rfl
  omega

/-- After a result that is miscounted `recv` is asked for too much, or the counter is
negative. -/
theorem Sound.not_within (hs : Sound errno n s) (hr : ¬ Counted errno r)
    (h : TimeServer.step prm s (.recv r) = some s') : ¬ Within (n + r.length) s' := by
  obtain ⟨hpc, hle, rfl⟩ := step_recv h
  obtain ⟨k, hk, hbytes, hcount⟩ := hs.exists_count
  obtain ⟨rfl, hlt⟩ := hcount hpc
  -- an error takes one off the counter; a byte not counted leaves the counter behind
  cases r with
  | error e =>
    rw [recv_error]
    cases k with
    | zero =>
      rintro ⟨hnonneg, -⟩
      rw [receives_recvBytes] at hnonneg
      simp only [hbytes] at hnonneg
      exact absurd hnonneg (by decide)
    | succ k =>
      have hback : s.recvBytes + -1 = BitVec.ofNat 32 k := by
        have hzero : BitVec.ofNat 32 1 + -1 = (0 : CInt) := by decide
        rw [hbytes, BitVec.ofNat_add, BitVec.add_assoc, hzero]
        exact BitVec.add_zero _
      exact not_within_of_behind hback (Nat.lt_of_succ_lt hlt) (Nat.lt_succ_self k)
  | chunk data =>
    obtain ⟨heintr, hone⟩ := Classical.not_imp.mp hr
    have hone : data.length = 1 := not_not.mp hone
    have hdata : data.length ≤ bufSize := by
      rw [hone]
      decide
    have hzero : Received.ret (.chunk data) ≠ 0 := fun h => by
      have hnil := (ret_eq_iff hdata (k := 0) (by decide)).mp h
      omega
    have hret : Received.ret (.chunk data) = 1 := (ret_eq_iff hdata (k := 1) (by decide)).mpr hone
    have herrno : (s.received (.chunk data)).errno = EINTR := hs.errno.trans heintr
    simp only [Handler.recv]
    rw [if_neg hzero, if_pos hret, if_pos herrno]
    refine not_within_of_behind (s := s.received (.chunk data)) hbytes hlt ?_
    show k < k + data.length
    omega

/-- The run from a state in which nothing has been miscounted, by induction on the results. -/
theorem Sound.within_iff (hs : Sound errno n s)
    (h : (connection_handler prm).run s (rs.map .recv) = some s') :
    (∀ us u, us <+: rs → (connection_handler prm).run s (us.map .recv) = some u →
      Within (n + bytesReceived us) u) ↔ ∀ r ∈ rs, Counted errno r := by
  induction rs generalizing n s with
  | nil =>
    refine iff_of_true (fun us u hus hu => ?_) fun r hr => absurd hr List.not_mem_nil
    obtain rfl := List.prefix_nil.mp hus
    obtain rfl : s = u := Option.some.inj hu
    exact hs.within
  | cons r rs ih =>
    obtain ⟨t, ht, hrest⟩ := Machine.run_cons_eq_some.mp h
    by_cases hr : Counted errno r
    · rw [List.forall_mem_cons, and_iff_right hr, ← ih (hs.step hr ht) hrest]
      constructor
      · intro hall us u hus hu
        have hwithin := hall (r :: us) u (List.cons_prefix_cons.mpr ⟨rfl, hus⟩)
          (Machine.run_cons_eq_some.mpr ⟨t, ht, hu⟩)
        rwa [bytesReceived, List.map_cons, List.sum_cons, ← Nat.add_assoc] at hwithin
      · intro hall us u hus hu
        cases us with
        | nil =>
          obtain rfl : s = u := Option.some.inj hu
          exact hs.within
        | cons r' us =>
          obtain ⟨rfl, hus'⟩ := List.cons_prefix_cons.mp hus
          obtain ⟨t', ht', hu'⟩ := Machine.run_cons_eq_some.mp hu
          obtain rfl := Option.some.inj (ht.symm.trans ht')
          rw [bytesReceived, List.map_cons, List.sum_cons, ← Nat.add_assoc]
          exact hall us u hus' hu'
    · -- right after `r`
      refine iff_of_false (fun hall => ?_) fun hall => hr (hall r List.mem_cons_self)
      have hwithin := hall [r] t (List.cons_prefix_cons.mpr ⟨rfl, List.nil_prefix⟩)
        (Machine.run_cons_eq_some.mpr ⟨t, ht, rfl⟩)
      exact hs.not_within hr ht hwithin

/-- **The lengths**: all along a run of the loop of `recv` the counter is in its range, and `recv`
is asked for at most what is left of the buffer, if and only if no `recv` has returned -1, nor
a single byte while `errno` is `EINTR`. -/
theorem lengths_within_iff (prm : Params) (errno : CInt) (recvBuf sendBuf : Memory Byte)
    (rs : List Received) (s' : Handler)
    (h : (connection_handler prm).run (start errno recvBuf sendBuf) (rs.map .recv) = some s') :
    (∀ us u, us <+: rs →
      (connection_handler prm).run (start errno recvBuf sendBuf) (us.map .recv) = some u →
        Within (bytesReceived us) u) ↔ ∀ r ∈ rs, Counted errno r := by
  have hstart : Sound errno 0 (start errno recvBuf sendBuf) :=
    ⟨rfl, 0, Nat.zero_le _, rfl, fun _ => ⟨rfl, by decide⟩⟩
  have hiff := hstart.within_iff h
  simp only [Nat.zero_add] at hiff
  exact hiff

/-- Half of the command. -/
theorem half_within : ∃ s',
    (connection_handler time).run (start 0 (fun _ => 0) fun _ => 0)
        ([.chunk (charBytes "TI")].map .recv) = some s' ∧
      ∀ us u, us <+: [.chunk (charBytes "TI")] →
        (connection_handler time).run (start 0 (fun _ => 0) fun _ => 0) (us.map .recv) = some u →
          Within (bytesReceived us) u :=
  ⟨_, rfl, (lengths_within_iff time 0 (fun _ => 0) (fun _ => 0) [.chunk (charBytes "TI")] _
    rfl).mpr (List.forall_mem_singleton.mpr fun _ => by decide)⟩

/-- The first `recv` is interrupted: the next one is asked for 257 bytes. -/
theorem interrupted_asks_too_much : ∃ s',
    (connection_handler time).run (start 0 (fun _ => 0) fun _ => 0) ([.error EINTR].map .recv)
        = some s' ∧ s'.pc = .receiving ∧ s'.recvBytes.toInt = -1 ∧ s'.recvLen.toNat = 257 :=
  ⟨_, rfl, by decide, by decide, by decide⟩

end Lengths

end TimeServer
