/-
The bounds of the buffer of `readOneByOne` in Lab06/03.

The loop of `readOneByOne` stops at a separator only, and its callers then store a terminator
after what it has read.

* `receptions` — a caller that receives one message after another, with the indexes that are
  stored to;
* `echo_reception`, `client_reception` — a byte received by the echo process or by the client
  is a step of it;
* `stores_lt_iff` — all indexes are in the buffer if and only if every message has its newline
  before the last byte of the buffer.
-/
import SistemiDiCalcolo.EchoFifoStages

open AccessLog (Byte)

namespace EchoFifo

/-- In `readOneByOne`, or ended with an error. -/
inductive ReceptionPc
  | reading (bytes_read : ℕ)
  | failed
  deriving DecidableEq, Repr

/-- The buffer and what is still to arrive; beside them the indexes that have been stored to. -/
structure Reception where
  pc : ReceptionPc
  fifo : List Byte
  buf : Memory Byte
  stores : List ℕ

/-- The next `read`.  At the separator `readOneByOne` returns, its caller stores the terminator
and calls it again. -/
def receptionStep (s : Reception) (ret : Ret) : Option Reception :=
  match s.pc with
  | .reading bytes_read =>
    (readOneByOne s.fifo false s.buf bytes_read newline ret).map fun
      | .again => s
      | .failed => { s with pc := .failed }
      | .byte fifo buf true =>
        -- the separator at `bytes_read`, the terminator of the caller after it
        { pc := .reading 0
          fifo := fifo
          buf := buf.store (bytes_read + 1) [0]
          stores := s.stores ++ [bytes_read, bytes_read + 1] }
      | .byte fifo buf false =>
        { pc := .reading (bytes_read + 1)
          fifo := fifo
          buf := buf
          stores := s.stores ++ [bytes_read] }
  | .failed => none

/-- The receptions of a stream, after which the FIFO is closed. -/
def receptions (stream : List Byte) : Machine Reception Ret where
  init s := ∃ buf, s = ⟨.reading 0, stream, buf, []⟩
  step := receptionStep

/-- Nothing, or what ends with a newline. -/
def Terminated (done : List Byte) : Prop := ∀ b ∈ done.getLast?, b = newline

/-- Wherever a message begins, its newline comes before the last byte of the buffer; or there is
none, and what is left fits in the buffer. -/
def Fits (stream : List Byte) : Prop :=
  ∀ done rest, stream = done ++ rest → Terminated done →
    newline ∈ rest.take (bufSize - 1) ∨ newline ∉ rest ∧ rest.length ≤ bufSize

section Receptions

variable {stream done got xs rest : List Byte} {s s' : Reception} {b : Byte}

/-! ### One byte -/

/-- The messages `done` have been received, and `got` of the next one. -/
structure At (stream done got : List Byte) (s : Reception) : Prop where
  stream : stream = done ++ got ++ s.fifo
  terminated : Terminated done
  newline_notMem : newline ∉ got
  pc : s.pc = .reading got.length

theorem terminated_concat (h : b = newline) : Terminated (done ++ [b]) := by
  intro c hc
  rw [List.getLast?_concat] at hc
  exact (Option.some.inj hc).symm.trans h

theorem Terminated.eq_nil (h : Terminated (done ++ xs)) (hxs : newline ∉ xs) : xs = [] := by
  cases xs using List.reverseRecOn with
  | nil => rfl
  | append_singleton xs b =>
    have hb : b = newline := h b (by rw [← List.append_assoc, List.getLast?_concat]; exact rfl)
    exact absurd (List.mem_append_right xs (List.mem_singleton.mpr hb.symm)) hxs

/-- What a step can do: nothing, fail, or take the byte that comes next. -/
inductive ReceptionStep (r : ℕ) (s : Reception) : Reception → Prop
  | again : ReceptionStep r s s
  | failed : ReceptionStep r s { s with pc := .failed }
  | last (fifo : List Byte) (buf : Memory Byte) : s.fifo = newline :: fifo →
      ReceptionStep r s ⟨.reading 0, fifo, buf, s.stores ++ [r, r + 1]⟩
  | more (b : Byte) (fifo : List Byte) (buf : Memory Byte) : s.fifo = b :: fifo →
      b ≠ newline → ReceptionStep r s ⟨.reading (r + 1), fifo, buf, s.stores ++ [r]⟩

theorem reception_step {ret : Ret} (h : receptionStep s ret = some s') :
    ∃ r, s.pc = .reading r ∧ ReceptionStep r s s' := by
  cases hpc : s.pc with
  | failed =>
    simp only [receptionStep, hpc] at h
    cases h
  | reading r =>
    refine ⟨r, rfl, ?_⟩
    simp only [receptionStep, hpc] at h
    obtain ⟨pass, hpass, rfl⟩ := Option.map_eq_some_iff.mp h
    rcases readOneByOne_cases hpass with ⟨-, rfl⟩ | ⟨-, -, rfl⟩ | ⟨b, rest, hfifo, rfl⟩
    · exact .again
    · exact .failed
    · by_cases hb : b = newline
      · subst hb
        rw [decide_eq_true rfl]
        exact .last rest _ hfifo
      · rw [decide_eq_false hb]
        exact .more b rest _ hfifo hb

/-- The byte that comes next can be read. -/
theorem exists_byte {r : ℕ} (hpc : s.pc = .reading r) (hfifo : s.fifo = b :: rest) :
    ∃ buf, receptionStep s (.moved 1) = some
      (if b = newline then ⟨.reading 0, rest, buf, s.stores ++ [r, r + 1]⟩
        else ⟨.reading (r + 1), rest, buf, s.stores ++ [r]⟩) := by
  simp only [receptionStep, hpc, hfifo, readOneByOne, Option.map_some]
  by_cases hb : b = newline
  · rw [decide_eq_true hb]
    exact ⟨_, by rw [if_pos hb]⟩
  · rw [decide_eq_false hb]
    exact ⟨_, by rw [if_neg hb]⟩

theorem at_init {buf : Memory Byte} : At stream [] [] ⟨.reading 0, stream, buf, []⟩ where
  stream := rfl
  terminated := nofun
  newline_notMem := List.not_mem_nil
  pc := rfl

/-- The separator. -/
theorem At.last (h : At stream done got s) (hfifo : s.fifo = newline :: rest)
    {buf : Memory Byte} {stores : List ℕ} :
    At stream (done ++ got ++ [newline]) [] ⟨.reading 0, rest, buf, stores⟩ where
  stream := by rw [h.stream, hfifo, List.append_nil, List.append_assoc (done ++ got)]; rfl
  terminated := terminated_concat rfl
  newline_notMem := List.not_mem_nil
  pc := rfl

/-- A byte of the message. -/
theorem At.more (h : At stream done got s) (hfifo : s.fifo = b :: rest) (hb : b ≠ newline)
    {buf : Memory Byte} {stores : List ℕ} :
    At stream done (got ++ [b]) ⟨.reading (got.length + 1), rest, buf, stores⟩ where
  stream := by rw [h.stream, hfifo, ← List.append_assoc, List.append_assoc (done ++ got)]; rfl
  terminated := h.terminated
  newline_notMem := by
    rw [List.mem_append, List.mem_singleton]
    rintro (hgot | hlast)
    · exact h.newline_notMem hgot
    · exact hb hlast.symm
  pc := by rw [List.length_append]; rfl

/-! ### Streams that fit -/

/-- A message that has room for the byte that comes next has room for its terminator, too. -/
theorem Fits.room (hfits : Fits stream) (h : At stream done got s) (hfifo : s.fifo = b :: rest) :
    got.length < bufSize ∧ (b = newline → got.length + 1 < bufSize) := by
  have hstream := h.stream
  rw [hfifo, List.append_assoc] at hstream
  rcases hfits done (got ++ b :: rest) hstream h.terminated with hsoon | ⟨hnever, hlen⟩
  · -- the newline is not in `got`, so `got` ends before it
    have hlt : got.length < bufSize - 1 := by
      by_contra hge
      rw [List.take_append_of_le_length (Nat.le_of_not_lt hge)] at hsoon
      exact h.newline_notMem (List.mem_of_mem_take hsoon)
    rw [bufSize] at hlt ⊢
    exact ⟨by omega, fun _ => by omega⟩
  · refine ⟨?_, fun hb => absurd (List.mem_append_right got ?_) hnever⟩
    · rw [List.length_append, List.length_cons] at hlen
      omega
    · rw [hb]
      exact List.mem_cons_self

/-- All that has been stored is in the buffer. -/
structure Inside (stream : List Byte) (s : Reception) : Prop where
  stores : ∀ i ∈ s.stores, i < bufSize
  at_reading : s.pc ≠ .failed → ∃ done got, At stream done got s

theorem Inside.step {ret : Ret} (hfits : Fits stream) (hs : Inside stream s)
    (h : receptionStep s ret = some s') : Inside stream s' := by
  obtain ⟨r, hpc, hstep⟩ := reception_step h
  obtain ⟨done, got, hat⟩ := hs.at_reading (by rw [hpc]; nofun)
  obtain rfl : got.length = r := by
    have hgot := hat.pc
    rw [hpc] at hgot
    exact (ReceptionPc.reading.inj hgot).symm
  have hstores : ∀ {is : List ℕ}, (∀ i ∈ is, i < bufSize) →
      ∀ i ∈ s.stores ++ is, i < bufSize := by
    intro is his i hi
    rcases List.mem_append.mp hi with hold | hnew
    · exact hs.stores i hold
    · exact his i hnew
  cases hstep with
  | again => exact hs
  | failed => exact ⟨hs.stores, fun hne => absurd rfl hne⟩
  | last fifo buf hfifo =>
    obtain ⟨hlt, hroom⟩ := hfits.room hat hfifo
    refine ⟨hstores fun i hi => ?_, fun _ => ⟨_, _, hat.last hfifo⟩⟩
    rcases List.mem_pair.mp hi with rfl | rfl
    · exact hlt
    · exact hroom rfl
  | more b fifo buf hfifo hb =>
    refine ⟨hstores fun i hi => ?_, fun _ => ⟨_, _, hat.more hfifo hb⟩⟩
    rw [List.mem_singleton.mp hi]
    exact (hfits.room hat hfifo).1

/-! ### Every stream is read to its end -/

/-- Whatever has arrived can have been received. -/
theorem exists_at (xs rest : List Byte) (h : stream = xs ++ rest) :
    ∃ s done got, (receptions stream).Reachable s ∧ At stream done got s ∧ xs = done ++ got ∧
      s.fifo = rest := by
  induction xs using List.reverseRecOn generalizing rest with
  | nil => exact ⟨_, [], [], .init ⟨fun _ => 0, rfl⟩, at_init, rfl, h⟩
  | append_singleton xs b ih =>
    rw [List.append_assoc] at h
    obtain ⟨s, done, got, hs, hat, rfl, hfifo⟩ := ih (b :: rest) h
    obtain ⟨buf, hstep⟩ := exists_byte hat.pc hfifo
    by_cases hb : b = newline
    · subst hb
      rw [if_pos rfl] at hstep
      exact ⟨_, _, _, hs.step _ hstep, hat.last hfifo, (List.append_nil _).symm, rfl⟩
    · rw [if_neg hb] at hstep
      exact ⟨_, _, _, hs.step _ hstep, hat.more hfifo hb, List.append_assoc _ _ _, rfl⟩

/-- What has been received of a message is all that has come since the last newline. -/
theorem exists_at_message {body : List Byte} (h : stream = done ++ body ++ rest)
    (hdone : Terminated done) (hbody : newline ∉ body) :
    ∃ s, (receptions stream).Reachable s ∧ s.pc = .reading body.length ∧ s.fifo = rest := by
  obtain ⟨s, done', got, hs, hat, heq, hfifo⟩ := exists_at (done ++ body) rest h
  -- neither of the two ends within the message of the other
  have hgot : body = got := by
    rcases List.append_eq_append_iff.mp heq with ⟨cs, rfl, rfl⟩ | ⟨cs, rfl, rfl⟩
    · rw [hat.terminated.eq_nil fun hcs => hbody (List.mem_append_left _ hcs), List.nil_append]
    · rw [hdone.eq_nil fun hcs => hat.newline_notMem (List.mem_append_left _ hcs),
        List.nil_append]
  exact ⟨s, hs, hgot ▸ hat.pc, hfifo⟩

/-- **The bounds**: `readOneByOne` and its callers store in the buffer only, exactly if every
message has its newline before the last byte of the buffer (or, if it never ends, fits in it). -/
theorem stores_lt_iff (stream : List Byte) :
    (∀ s, (receptions stream).Reachable s → ∀ i ∈ s.stores, i < bufSize) ↔ Fits stream := by
  constructor
  · intro h done rest hstream hdone
    by_cases hmem : newline ∈ rest
    · -- the terminator of this message is in the buffer
      left
      obtain ⟨body, tail, rfl, hbody⟩ := List.eq_append_cons_of_mem hmem
      rw [← List.append_assoc] at hstream
      obtain ⟨s, hs, hpc, hfifo⟩ := exists_at_message hstream hdone hbody
      obtain ⟨buf, hstep⟩ := exists_byte hpc hfifo
      rw [if_pos rfl] at hstep
      have hlt : body.length + 1 < bufSize := by
        refine h _ (hs.step _ hstep) _ (List.mem_append_right _ ?_)
        simp
      rw [List.take_append, List.mem_append]
      right
      obtain ⟨k, hk⟩ := Nat.exists_eq_add_of_lt (Nat.lt_sub_of_add_lt hlt)
      rw [hk, Nat.add_assoc, Nat.add_sub_cancel_left, List.take_succ_cons]
      exact List.mem_cons_self
    · -- without a newline, the byte after the buffer would be stored
      refine .inr ⟨hmem, ?_⟩
      by_contra hlong
      have hlt : bufSize < rest.length := Nat.lt_of_not_le hlong
      rw [← List.take_append_drop bufSize rest, ← List.append_assoc] at hstream
      obtain ⟨s, hs, hpc, hfifo⟩ := exists_at_message hstream hdone
        fun hin => hmem (List.mem_of_mem_take hin)
      rw [List.length_take_of_le hlt.le] at hpc
      rw [List.drop_eq_getElem_cons hlt] at hfifo
      obtain ⟨buf, hstep⟩ := exists_byte hpc hfifo
      have hne : rest[bufSize] ≠ newline := fun heq => hmem (heq ▸ List.getElem_mem hlt)
      rw [if_neg hne] at hstep
      have hlast := h _ (hs.step _ hstep) bufSize
        (List.mem_append_right _ (List.mem_singleton_self _))
      exact absurd hlast (Nat.lt_irrefl _)
  · intro hfits s hs
    have hinside : Inside stream s := by
      refine hs.invariant ?_ fun s ret s' _ hs hstep => hs.step hfits hstep
      rintro s ⟨buf, rfl⟩
      exact ⟨fun i hi => absurd hi List.not_mem_nil, fun _ => ⟨_, _, at_init⟩⟩
    exact hinside.stores

/-- A message as long as the buffer: its terminator is stored after the last byte. -/
theorem full_message_overflows : ∃ s,
    (receptions (List.replicate 1023 120 ++ [newline])).Reachable s ∧ bufSize ∈ s.stores := by
  have hbody : newline ∉ List.replicate 1023 (120 : Byte) := by
    intro hmem
    exact absurd (List.eq_of_mem_replicate hmem) (by decide)
  obtain ⟨s, hs, hpc, hfifo⟩ := @exists_at_message _ [] [newline] _ rfl nofun hbody
  obtain ⟨buf, hstep⟩ := exists_byte hpc hfifo
  rw [if_pos rfl] at hstep
  refine ⟨_, hs.step _ hstep, List.mem_append_right _ ?_⟩
  rw [List.length_replicate]
  simp [bufSize]

end Receptions

/-! ### The two programs -/

section Programs

variable {capacity r : ℕ} {s s' : State} {b : Byte} {rest : List Byte} {stores : List ℕ}

theorem echoReceives_buf {buf : Memory Byte} : (s.echoReceives buf r).echoBuf = buf.store r [0] ∧
    (s.echoReceives buf r).clientFifo = s.clientFifo := by
  simp only [State.echoReceives, State.echoSends, State.echoReads]
  split_ifs <;> exact ⟨rfl, rfl⟩

/-- A byte that the echo process receives. -/
theorem echo_reception (hpc : s.echo = .reading r) (hfifo : s.clientFifo = b :: rest)
    (h : echo capacity s (.moved 1) = some s') :
    ∃ u, receptionStep ⟨.reading r, s.clientFifo, s.echoBuf, stores⟩ (.moved 1) = some u ∧
      s'.clientFifo = u.fifo ∧ s'.echoBuf = u.buf := by
  simp only [echo, hpc, hfifo, readOneByOne, Option.map_some] at h
  simp only [receptionStep, hfifo, readOneByOne, Option.map_some]
  by_cases hb : b = newline
  · rw [decide_eq_true hb] at h ⊢
    cases h
    exact ⟨_, rfl, echoReceives_buf.2, echoReceives_buf.1⟩
  · rw [decide_eq_false hb] at h ⊢
    cases h
    exact ⟨_, rfl, rfl, rfl⟩

/-- A byte that the client receives, of the welcome message or of a reply. -/
theorem client_reception (hpc : s.client = .welcome r ∨ s.client = .reply r)
    (hfifo : s.echoFifo = b :: rest) (h : client capacity s (.moved 1) = some s') :
    ∃ u, receptionStep ⟨.reading r, s.echoFifo, s.clientBuf, stores⟩ (.moved 1) = some u ∧
      s'.echoFifo = u.fifo ∧ s'.clientBuf = u.buf := by
  simp only [receptionStep, hfifo, readOneByOne, Option.map_some]
  rcases hpc with hpc | hpc
  all_goals
    simp only [client, hpc, hfifo, readOneByOne, Option.map_some] at h
    by_cases hb : b = newline
    · rw [decide_eq_true hb] at h ⊢
      cases h
      exact ⟨_, rfl, rfl, rfl⟩
    · rw [decide_eq_false hb] at h ⊢
      cases h
      exact ⟨_, rfl, rfl, rfl⟩

end Programs

end EchoFifo
