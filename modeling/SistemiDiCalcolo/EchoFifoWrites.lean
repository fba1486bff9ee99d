/-
One call of `writeMsg(fd, buf, size)` of Lab06/03.

The FIFO takes what it likes of the bytes that are left, and calls may be interrupted.

* `writeCall` — `strlen`, byte by byte, and then the loop; `size` is not used;
* `WriteInv` — how far the two have come, and what they have read;
* `sends_size_iff` — the message sent is `buf[0..size)` exactly if `strlen(buf)`, as an `int`,
  is `size`; and even then a byte after it is read.
-/
import SistemiDiCalcolo.EchoFifoStages

open AccessLog (Byte)

namespace EchoFifo

/-- The calls of `writeMsg`: looking at a byte in `strlen`, in `write`, and returned. -/
inductive WritePc
  | strlen (i : ℕ)
  | writing (bytes_sent bytes_left : ℕ)
  | returned
  deriving DecidableEq, Repr

/-- The call; beside it the bytes that the FIFO has accepted, and which bytes of `buf` `strlen` and
`write` have read. -/
structure WriteCall where
  pc : WritePc
  accepted : List Byte
  scanned : List ℕ
  written : List ℕ

namespace WriteCall

/-- The test of the loop. -/
def loop (c : WriteCall) (bytes_sent bytes_left : ℕ) : WriteCall :=
  { c with pc := if 0 < bytes_left then .writing bytes_sent bytes_left else .returned }

/-- `strlen` looks at one more byte; its result is converted to the `int` `bytes_left`. -/
def scan (buf : Memory Byte) (c : WriteCall) (i : ℕ) : WriteCall :=
  let c := { c with scanned := c.scanned ++ [i] }
  if buf i = 0 then c.loop 0 (BitVec.ofNat 32 i : CInt).toInt.toNat
  else { c with pc := .strlen (i + 1) }

end WriteCall

/-- The steps of the call, on a FIFO that has room and a reader. -/
def writeCall (buf : Memory Byte) : Machine WriteCall Ret where
  init c := c = ⟨.strlen 0, [], [], []⟩
  step c ret :=
    match c.pc with
    | .strlen i => some (c.scan buf i)
    | .writing bytes_sent bytes_left =>
      (writeMsg bytes_left [] true buf bytes_sent bytes_left ret).map fun
        | .again | .failed => c
        | .wrote fifo sent left =>
          { c with
            accepted := c.accepted ++ fifo
            written := c.written ++ List.range' bytes_sent fifo.length }.loop sent left
    | .returned => none

section Call

variable {buf : Memory Byte} {c c' : WriteCall} {z i bytes_sent bytes_left : ℕ} {ret : Ret}

/-- `z` is `strlen(buf)`, wherever the first zero stands. -/
structure FirstZero (buf : Memory Byte) (z : ℕ) : Prop where
  zero : buf z = 0
  ne : ∀ i, i < z → buf i ≠ 0

theorem FirstZero.unique {z' : ℕ} (h : FirstZero buf z) (h' : FirstZero buf z') : z = z' := by
  rcases Nat.lt_trichotomy z z' with hlt | heq | hgt
  · exact absurd h.zero (h'.ne z hlt)
  · exact heq
  · exact absurd h'.zero (h.ne z' hgt)

/-- The number of bytes that the loop sends of a text of length `z`. -/
def sentLength (z : ℕ) : ℕ := (BitVec.ofNat 32 z : CInt).toInt.toNat

/-- A text that is not too long is sent as a whole. -/
theorem sentLength_eq (hz : z < 2 ^ 31) : sentLength z = z := by
  rw [sentLength, toInt_ofNat_of_lt hz, Int.toNat_natCast]

/-- Before the end, `strlen` has found no zero. -/
def Scanning (buf : Memory Byte) (i : ℕ) (c : WriteCall) : Prop :=
  (∀ j, j < i → buf j ≠ 0) ∧ c.accepted = [] ∧ c.scanned = List.range i ∧ c.written = []

/-- `strlen` has read up to the first zero, and `bytes_sent` bytes have been read and accepted. -/
def HasSent (buf : Memory Byte) (z bytes_sent : ℕ) (c : WriteCall) : Prop :=
  FirstZero buf z ∧ c.scanned = List.range (z + 1) ∧ c.accepted = buf.load 0 bytes_sent ∧
    c.written = List.range bytes_sent

/-- How far the call has come. -/
def WriteInv (buf : Memory Byte) (c : WriteCall) : Prop :=
  match c.pc with
  | .strlen i => Scanning buf i c
  | .writing bytes_sent bytes_left =>
    ∃ z, HasSent buf z bytes_sent c ∧ bytes_sent + bytes_left = sentLength z
  | .returned => ∃ z, HasSent buf z (sentLength z) c

theorem writeInv_loop (h : HasSent buf z bytes_sent c)
    (hsum : bytes_sent + bytes_left = sentLength z) :
    WriteInv buf (c.loop bytes_sent bytes_left) := by
  by_cases hleft : 0 < bytes_left
  · have hpc : c.loop bytes_sent bytes_left = { c with pc := .writing bytes_sent bytes_left } := by
      rw [WriteCall.loop, if_pos hleft]
    rw [hpc]
    exact ⟨z, h, hsum⟩
  · have hpc : c.loop bytes_sent bytes_left = { c with pc := .returned } := by
      rw [WriteCall.loop, if_neg hleft]
    obtain rfl : bytes_sent = sentLength z := by omega
    rw [hpc]
    exact ⟨z, h⟩

theorem writeInv_scan (h : Scanning buf i c) : WriteInv buf (c.scan buf i) := by
  obtain ⟨hne, haccepted, hscanned, hwritten⟩ := h
  have hscanned' : c.scanned ++ [i] = List.range (i + 1) := by
    rw [hscanned, List.range_succ]
  rw [WriteCall.scan]
  split
  · rename_i hzero
    exact writeInv_loop ⟨⟨hzero, hne⟩, hscanned', haccepted, hwritten⟩ (Nat.zero_add _)
  · rename_i hnonzero
    refine ⟨fun j hj => ?_, haccepted, hscanned', hwritten⟩
    rcases Nat.lt_succ_iff_lt_or_eq.mp hj with hj | rfl
    · exact hne j hj
    · exact hnonzero

/-- One step. -/
theorem WriteInv.step (h : WriteInv buf c) (hstep : (writeCall buf).step c ret = some c') :
    WriteInv buf c' := by
  obtain ⟨pc, accepted, scanned, written⟩ := c
  cases pc with
  | strlen i =>
    obtain rfl := Option.some.inj hstep
    exact writeInv_scan h
  | writing bytes_sent bytes_left =>
    obtain ⟨z, ⟨hzero, hscanned, haccepted, hwritten⟩, hsum⟩ := h
    obtain ⟨pass, hpass, rfl⟩ := Option.map_eq_some_iff.mp hstep
    rcases writeMsg_cases hpass with ⟨-, rfl⟩ | ⟨hopen, -⟩ | ⟨n, -, hle, rfl⟩
    · exact ⟨z, ⟨hzero, hscanned, haccepted, hwritten⟩, hsum⟩
    · cases hopen
    · refine writeInv_loop (z := z) ⟨hzero, hscanned, ?_, ?_⟩ (by omega)
      · show accepted ++ ([] ++ _) = _
        have haccepted' : accepted = buf.load 0 bytes_sent := haccepted
        rw [haccepted', List.nil_append, Memory.load_add, Nat.zero_add]
      · show written ++ List.range' bytes_sent ([] ++ _).length = _
        have hwritten' : written = List.range bytes_sent := hwritten
        have happend : List.range' 0 bytes_sent ++ List.range' (0 + bytes_sent) n =
            List.range' 0 (bytes_sent + n) := List.range'_append_1
        rw [hwritten', List.nil_append, Memory.length_load, List.range_eq_range',
          List.range_eq_range', ← happend, Nat.zero_add]
  | returned => cases hstep

theorem writeInv (h : (writeCall buf).Reachable c) : WriteInv buf c := by
  refine h.invariant ?_ fun _ _ _ _ hs hstep => hs.step hstep
  rintro c rfl
  exact ⟨fun j hj => absurd hj (Nat.not_lt_zero j), rfl, rfl, rfl⟩

/-! ### The end of the call -/

/-- `strlen` gets to the first zero. -/
theorem reachable_strlen (hz : FirstZero buf z) (hi : i ≤ z) :
    (writeCall buf).Reachable ⟨.strlen i, [], List.range i, []⟩ := by
  induction i with
  | zero => exact .init rfl
  | succ i ih =>
    refine (ih (Nat.le_of_succ_le hi)).step .eintr ?_
    show some (WriteCall.scan buf _ i) = _
    rw [WriteCall.scan, if_neg (hz.ne i hi), List.range_succ]

/-- All that is left is written at once. -/
theorem writeMsg_all (hleft : 0 < bytes_left) :
    writeMsg bytes_left [] true buf 0 bytes_left (.moved bytes_left) =
      some (.wrote (buf.load 0 bytes_left) bytes_left 0) := by
  have hroom : 0 < bytes_left ∧ bytes_left ≤ bytes_left ∧
      ([] : List Byte).length + bytes_left ≤ bytes_left :=
    ⟨hleft, le_rfl, (Nat.zero_add bytes_left).le⟩
  simp only [writeMsg, if_true, if_pos hroom, List.nil_append, Nat.zero_add, Nat.sub_self]

/-- If there is a zero, the call can return. -/
theorem exists_returned (hz : FirstZero buf z) :
    ∃ c, (writeCall buf).Reachable c ∧ c.pc = .returned := by
  have hfound : (writeCall buf).step ⟨.strlen z, [], List.range z, []⟩ .eintr =
      some (WriteCall.loop ⟨.strlen z, [], List.range (z + 1), []⟩ 0 (sentLength z)) := by
    show some (WriteCall.scan buf _ z) = _
    rw [WriteCall.scan, if_pos hz.zero, List.range_succ]
    rfl
  have hloop := (reachable_strlen hz le_rfl).step .eintr hfound
  rw [WriteCall.loop] at hloop
  split at hloop
  · rename_i hleft
    exact ⟨_, hloop.step (.moved (sentLength z))
      (Option.map_eq_some_iff.mpr ⟨_, writeMsg_all hleft, rfl⟩), rfl⟩
  · exact ⟨_, hloop, rfl⟩

theorem sentLength_le : sentLength z ≤ z := by
  have hmod : (BitVec.ofNat 32 z : CInt).toNat ≤ z := by
    rw [BitVec.toNat_ofNat]
    exact Nat.mod_le _ _
  have hcond := BitVec.toInt_eq_toNat_cond (BitVec.ofNat 32 z : CInt)
  rw [sentLength]
  split at hcond <;> omega

theorem hasSent_of_returned (h : (writeCall buf).Reachable c) (hpc : c.pc = .returned) :
    ∃ z, HasSent buf z (sentLength z) c := by
  have hinv := writeInv h
  rwa [WriteInv, hpc] at hinv

/-- The call returns, the FIFO has accepted `buf[0..size)`, and `write` has read nothing else. -/
def SendsSize (buf : Memory Byte) (size : ℕ) : Prop :=
  (∃ c, (writeCall buf).Reachable c ∧ c.pc = .returned) ∧
    ∀ c, (writeCall buf).Reachable c → c.pc = .returned →
      c.accepted = buf.load 0 size ∧ ∀ a ∈ c.written, a < size

/-- **What `writeMsg` sends** is `buf[0..size)` exactly if the length of the text in `buf`, as an
`int`, is `size`.  Even then `strlen` has read a byte outside. -/
theorem sends_size_iff (buf : Memory Byte) (size : ℕ) :
    (SendsSize buf size ↔ ∃ z, FirstZero buf z ∧ sentLength z = size) ∧
      ∀ c, (writeCall buf).Reachable c → c.pc = .returned →
        ¬ (c.accepted = buf.load 0 size ∧ ∀ a ∈ c.scanned ++ c.written, a < size) := by
  -- the number of bytes tells the two messages apart
  have hlength : ∀ z, buf.load 0 (sentLength z) = buf.load 0 size → sentLength z = size := by
    intro z heq
    have hlen := congrArg List.length heq
    rwa [Memory.length_load, Memory.length_load] at hlen
  refine ⟨⟨?_, ?_⟩, ?_⟩
  · rintro ⟨⟨c, hc, hpc⟩, hall⟩
    obtain ⟨z, hz, -, haccepted, -⟩ := hasSent_of_returned hc hpc
    have hsize := (hall c hc hpc).1
    rw [haccepted] at hsize
    exact ⟨z, hz, hlength z hsize⟩
  · rintro ⟨z, hz, rfl⟩
    refine ⟨exists_returned hz, fun c hc hpc => ?_⟩
    obtain ⟨z', hz', -, haccepted, hwritten⟩ := hasSent_of_returned hc hpc
    obtain rfl := hz.unique hz'
    refine ⟨haccepted, fun a ha => ?_⟩
    rw [hwritten] at ha
    exact List.mem_range.mp ha
  · rintro c hc hpc ⟨hsize, hreads⟩
    obtain ⟨z, -, hscanned, haccepted, -⟩ := hasSent_of_returned hc hpc
    rw [haccepted] at hsize
    have hlen := hlength z hsize
    have hread : z < size := by
      refine hreads z (List.mem_append_left _ ?_)
      rw [hscanned]
      exact List.self_mem_range_succ
    have hle : sentLength z ≤ z := sentLength_le
    omega

/-- A zero in the second of three bytes: one byte is sent. -/
theorem zero_inside_cuts : ∃ buf : Memory Byte, buf.load 0 3 = [97, 0, 98] ∧
    (∃ c, (writeCall buf).Reachable c ∧ c.pc = .returned ∧ c.accepted = [97]) ∧
    ¬ SendsSize buf 3 := by
  have hz : FirstZero (fun i => ([97, 0, 98] : List Byte).getD i 0) 1 := by
    refine ⟨rfl, fun i hi => ?_⟩
    obtain rfl := Nat.lt_one_iff.mp hi
    decide
  obtain ⟨c, hc, hpc⟩ := exists_returned hz
  obtain ⟨z, hz', -, haccepted, -⟩ := hasSent_of_returned hc hpc
  obtain rfl := hz.unique hz'
  rw [sentLength_eq (by decide)] at haccepted
  refine ⟨_, rfl, ⟨c, hc, hpc, haccepted⟩, fun h => ?_⟩
  have hsize := (h.2 c hc hpc).1
  rw [haccepted] at hsize
  exact absurd (congrArg List.length hsize) (by decide)

end Call

end EchoFifo
