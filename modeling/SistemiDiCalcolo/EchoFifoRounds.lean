/-
Sessions of the echo program of Lab06/03.

* `step_stepsLeft` — what every uninterrupted call uses up;
* `Stage.of_quiescent` — where nobody can go on, either the session is over or both
  processes wait in `readOneByOne`;
* `echo_fidelity` — every line comes back as it was sent;
* `quit_agreement` — the command is a line like the others, and nobody quits;
* `never_both_waiting` — both processes wait for ever if and only if `fgets` delivers a line
  without newline, or with a zero.
-/
import SistemiDiCalcolo.EchoFifoStages

open AccessLog (Byte)
open Memory (cString strlen)
open Lines (IsLine Unbroken takeLine pieces)

namespace EchoFifo

variable {capacity : ℕ} {s s' : State} {ret : Ret} {unsent line : List Byte}
  {lines : List (List Byte)} {n : ℕ}

/-! ### What a session uses up -/

/-- The cost of a byte in the FIFO of the client: it may end a message, and the answer is
written and read. -/
def byteLeft : ℕ := 2 * bufSize + 1

def EchoPc.stepsLeft : EchoPc → ℕ
  | .writing _ bytes_left => 2 * bytes_left + 1
  | .reading _ => 1
  | .left | .failed => 0

def ClientPc.stepsLeft : ClientPc → ℕ
  | .writing _ bytes_left => (byteLeft + 1) * bytes_left + 1
  | .welcome _ | .prompt | .reply _ => 1
  | .left | .failed => 0

/-- A bound on the uninterrupted calls that are still to be made. -/
def State.stepsLeft (s : State) : ℕ :=
  ((byteLeft + 1) * bufSize + 1) * s.stdin.length + s.client.stepsLeft +
    byteLeft * s.clientFifo.length + s.echo.stepsLeft + s.echoFifo.length

/-- What the echo process may have to send. -/
theorem echoSends_stepsLeft :
    s.echoSends.stepsLeft + s.echo.stepsLeft ≤ s.stepsLeft + byteLeft := by
  have hstrlen : strlen bufSize s.echoBuf ≤ bufSize := Memory.strlen_le
  rw [State.echoSends]
  split
  · simp only [State.echoReads, State.stepsLeft, EchoPc.stepsLeft, byteLeft]
    omega
  · simp only [State.stepsLeft, EchoPc.stepsLeft, byteLeft]
    omega

theorem echoReceives_stepsLeft (buf : Memory Byte) (n : ℕ) :
    (s.echoReceives buf n).stepsLeft + s.echo.stepsLeft ≤ s.stepsLeft + byteLeft := by
  simp only [State.echoReceives]
  split
  · simp only [State.stepsLeft, EchoPc.stepsLeft]
    omega
  · exact echoSends_stepsLeft

theorem echo_stepsLeft (h : echo capacity s ret = some s') :
    ret.isMoved = false ∧ s' = s ∨ s'.stepsLeft < s.stepsLeft := by
  cases hpc : s.echo with
  | writing k l =>
    rcases echo_writing hpc h with hsame | ⟨-, rfl⟩ | ⟨i, hi, hil, rfl⟩
    · exact .inl hsame
    · refine .inr ?_
      simp only [State.stepsLeft, hpc, EchoPc.stepsLeft]
      omega
    · refine .inr ?_
      simp only [State.stepsLeft, hpc, List.length_append, Memory.length_load]
      split <;> simp only [EchoPc.stepsLeft] <;> omega
  | reading n =>
    rcases echo_reading hpc h with
      hsame | ⟨-, rfl⟩ | ⟨b, rest, hfifo, ⟨-, rfl⟩ | ⟨-, rfl⟩⟩
    · exact .inl hsame
    · refine .inr ?_
      simp only [State.stepsLeft, hpc, EchoPc.stepsLeft]
      omega
    · refine .inr ?_
      have hpos : 0 < byteLeft := by decide
      simp only [State.stepsLeft, hpc, hfifo, EchoPc.stepsLeft, List.length_cons, Nat.mul_add_one]
      omega
    · refine .inr ?_
      have hle : _ + s.echo.stepsLeft ≤ _ := echoReceives_stepsLeft
        (s := { s with clientFifo := rest }) (s.echoBuf.store n [b]) (n + 1)
      have hlt : State.stepsLeft { s with clientFifo := rest } + byteLeft = s.stepsLeft := by
        simp only [State.stepsLeft, hfifo, List.length_cons, Nat.mul_add_one]
        omega
      have hone : s.echo.stepsLeft = 1 := congrArg EchoPc.stepsLeft hpc
      omega
  | left =>
    rw [echo, hpc] at h
    cases h
  | failed =>
    rw [echo, hpc] at h
    cases h

theorem ClientSending.stepsLeft_le (h : ClientSending s unsent) :
    s.client.stepsLeft ≤ (byteLeft + 1) * unsent.length + 1 := by
  rcases h with ⟨k, l, hpc, -, rfl⟩ | ⟨hpc, rfl⟩
  · rw [hpc, Memory.length_load, ClientPc.stepsLeft]
  · rw [hpc]
    exact Nat.le_refl 1

/-- A line costs less than its bytes on the terminal. -/
theorem clientSends_stepsLeft (hstdin : s.stdin ≠ []) :
    (s.clientSends (takeLine newline (bufSize - 1) s.stdin)).stepsLeft + s.client.stepsLeft <
      s.stepsLeft + 1 := by
  have hlen : (takeLine newline (bufSize - 1) s.stdin).length ≤ bufSize - 1 :=
    Lines.length_takeLine_le
  have hpos : 0 < (takeLine newline (bufSize - 1) s.stdin).length :=
    List.length_pos_iff.mpr (Lines.takeLine_ne_nil (by decide) hstdin)
  have hle : (takeLine newline (bufSize - 1) s.stdin).length ≤ s.stdin.length :=
    Lines.takeLine_prefix.length_le
  obtain ⟨buf, pc, unsent, heq, -, hunsent, hsending⟩ := clientSends_cases (s := s) hlen
  have hpc := hsending.stepsLeft_le
  have htext : unsent.length ≤ (takeLine newline (bufSize - 1) s.stdin).length := by
    rw [hunsent]
    exact (List.takeWhile_prefix _).length_le
  rw [heq] at hpc ⊢
  simp only [State.stepsLeft, List.length_drop, byteLeft, bufSize] at *
  omega

theorem client_stepsLeft (h : client capacity s ret = some s') :
    ret.isMoved = false ∧ s' = s ∨ s'.stepsLeft < s.stepsLeft := by
  -- the two calls of `readOneByOne`
  have hreading : (∃ n, s.client = .welcome n ∨ s.client = .reply n) →
      ret.isMoved = false ∧ s' = s ∨ s'.stepsLeft < s.stepsLeft := by
    rintro ⟨n, hpc⟩
    have hone : s.client.stepsLeft = 1 := by rcases hpc with hpc | hpc <;> rw [hpc] <;> rfl
    rcases client_reading hpc h with
      hsame | ⟨-, rfl⟩ | ⟨b, rest, hfifo, ⟨-, pc, hpc', rfl⟩ | ⟨-, rfl⟩⟩
    · exact .inl hsame
    · refine .inr ?_
      simp only [State.stepsLeft, hone]
      simp only [ClientPc.stepsLeft]
      omega
    · refine .inr ?_
      have hone' : pc.stepsLeft = 1 := by rcases hpc' with rfl | rfl <;> rfl
      simp only [State.stepsLeft, hone, hone', hfifo, List.length_cons]
      omega
    · refine .inr ?_
      simp only [State.clientReceives, State.stepsLeft, hone, hfifo, List.length_cons]
      simp only [ClientPc.stepsLeft]
      omega
  cases hpc : s.client with
  | welcome n => exact hreading ⟨n, .inl hpc⟩
  | reply n => exact hreading ⟨n, .inr hpc⟩
  | prompt =>
    rcases client_prompt hpc h with ⟨-, rfl⟩ | ⟨hstdin, hs'⟩
    · refine .inr ?_
      simp only [State.stepsLeft, hpc, ClientPc.stepsLeft]
      omega
    · have hlt := clientSends_stepsLeft hstdin
      rw [hpc, ClientPc.stepsLeft] at hlt
      rw [hs']
      exact .inr (Nat.lt_of_succ_lt_succ hlt)
  | writing k l =>
    rcases client_writing hpc h with
      hsame | ⟨-, rfl⟩ | ⟨i, hi, hil, ⟨-, rfl⟩ | ⟨-, rfl⟩⟩
    · exact .inl hsame
    · refine .inr ?_
      simp only [State.stepsLeft, hpc, ClientPc.stepsLeft]
      omega
    · refine .inr ?_
      simp only [State.stepsLeft, hpc, ClientPc.stepsLeft, List.length_append,
        Memory.length_load, byteLeft, bufSize]
      omega
    · refine .inr ?_
      simp only [State.stepsLeft, hpc, ClientPc.stepsLeft, List.length_append,
        Memory.length_load, byteLeft, bufSize]
      omega
  | left =>
    simp only [client, hpc] at h
    cases h
  | failed =>
    simp only [client, hpc] at h
    cases h

theorem step_stepsLeft {t : Agent} (h : step capacity s t = some s') :
    t.isMoved = false ∧ s' = s ∨ s'.stepsLeft < s.stepsLeft := by
  cases t with
  | client ret => exact client_stepsLeft h
  | echo ret => exact echo_stepsLeft h

/-- An uninterrupted call uses something up. -/
theorem step_stepsLeft_lt {t : Agent} (h : step capacity s t = some s') (ht : t.isMoved = true) :
    s'.stepsLeft < s.stepsLeft := by
  refine (step_stepsLeft h).resolve_left fun hsame => ?_
  rw [hsame.1] at ht
  cases ht

theorem run_countP_le {stdin : List Byte} {ts : List Agent}
    (h : (program capacity stdin).run s ts = some s') :
    ts.countP Agent.isMoved + s'.stepsLeft ≤ s.stepsLeft := by
  refine Machine.run_countP_measure ?_ ?_ h
  · intro s t s' hstep ht
    exact step_stepsLeft_lt hstep ht
  · intro s t s' hstep _
    rcases step_stepsLeft hstep with ⟨-, rfl⟩ | hlt
    · exact le_rfl
    · exact hlt.le

theorem start_stepsLeft (stdin : List Byte) (clientBuf echoBuf : Memory Byte) :
    (start stdin clientBuf echoBuf).stepsLeft ≤
      ((byteLeft + 1) * bufSize + 1) * stdin.length + byteLeft + 1 := by
  have hle := echoSends_stepsLeft (s := opened stdin clientBuf echoBuf)
  have hone : (opened stdin clientBuf echoBuf).echo.stepsLeft = 1 := rfl
  have hopened : (opened stdin clientBuf echoBuf).stepsLeft =
      ((byteLeft + 1) * bufSize + 1) * stdin.length + 1 + byteLeft * 0 + 1 + 0 := rfl
  rw [start]
  omega

/-! ### Where nobody can go on -/

/-- Both processes are in `readOneByOne`, on empty FIFOs. -/
structure Deadlocked (s : State) : Prop where
  client : ∃ n, s.client = .welcome n ∨ s.client = .reply n
  echo : ∃ n, s.echo = .reading n
  echoFifo : s.echoFifo = []
  clientFifo : s.clientFifo = []

/-- The input is over, and both processes have seen the end of what they read. -/
structure Ended (lines : List (List Byte)) (s : State) : Prop where
  client : s.client = .failed
  echo : s.echo = .failed
  clientFifo : s.clientFifo = []
  echoFifo : s.echoFifo = []
  printed : s.printed = welcome :: lines
  sent : s.sent = lines
  received : s.received = lines

theorem echoFifo_eq_nil (hpc : s.client = .welcome n ∨ s.client = .reply n)
    (h : client capacity s (.moved 1) = none) : s.echoFifo = [] := by
  cases hfifo : s.echoFifo with
  | nil => rfl
  | cons b rest =>
    rcases hpc with hpc | hpc
    all_goals
      simp only [client, hpc, Option.map_eq_none_iff, hfifo] at h
      cases h

theorem clientFifo_eq_nil (hpc : s.echo = .reading n) (h : echo capacity s (.moved 1) = none) :
    s.clientFifo = [] := by
  cases hfifo : s.clientFifo with
  | nil => rfl
  | cons b rest =>
    simp only [echo, hpc, Option.map_eq_none_iff, hfifo] at h
    cases h

/-- There is room for a byte in an empty FIFO. -/
theorem writeMsg_ne_none {buf : Memory Byte} {k l : ℕ} (hcapacity : 0 < capacity) (hl : 0 < l) :
    writeMsg capacity [] true buf k l (.moved 1) ≠ none := by
  rw [writeMsg, if_pos rfl]
  show (if 0 < 1 ∧ 1 ≤ l ∧ [].length + 1 ≤ capacity then _ else none) ≠ none
  rw [if_pos ⟨Nat.one_pos, hl, hcapacity⟩]
  exact Option.some_ne_none _

theorem EchoSending.eq_reading (hs : EchoSending s unsent) (hcapacity : 0 < capacity)
    (hopen : s.clientOpen = true) (hempty : s.echoFifo = [])
    (h : echo capacity s (.moved 1) = none) : s.echo = .reading 0 ∧ unsent = [] := by
  rcases hs with ⟨k, l, hpc, hl, -⟩ | hreading
  · simp only [echo, hpc, hopen, hempty, Option.map_eq_none_iff] at h
    exact absurd h (writeMsg_ne_none hcapacity hl)
  · exact hreading

theorem ClientSending.eq_reply (hs : ClientSending s unsent) (hcapacity : 0 < capacity)
    (hopen : s.echoOpen = true) (hempty : s.clientFifo = [])
    (h : client capacity s (.moved 1) = none) : s.client = .reply 0 ∧ unsent = [] := by
  rcases hs with ⟨k, l, hpc, hl, -⟩ | hreply
  · simp only [client, hpc, hopen, hempty, Option.map_eq_none_iff] at h
    exact absurd h (writeMsg_ne_none hcapacity hl)
  · exact hreply

/-- **Where nobody can go on**, either all lines have made the round, or both processes wait
for the end of a text without newline. -/
theorem Stage.of_quiescent {stdin : List Byte} (hcapacity : 0 < capacity) (hs : Stage lines s)
    (hq : (program capacity stdin).Quiescent Agent.isMoved s) :
    Deadlocked s ∨ (∀ line ∈ lines, IsMessage line) ∧ Ended lines s := by
  have hclientStep : ∀ k, client capacity s (.moved k) = none := by
    intro k
    exact hq (.client (.moved k)) rfl
  have hechoStep : ∀ k, echo capacity s (.moved k) = none := by
    intro k
    exact hq (.echo (.moved k)) rfl
  cases hs with
  | receiving ms m n unsent hclient hecho hempty hrec hm =>
    have hopen := clientOpen_of_reading hclient
    -- the client would read, and the echo process would write to an empty FIFO
    have hfifo := echoFifo_eq_nil hclient (hclientStep 1)
    obtain ⟨hpc, -⟩ := hecho.eq_reading hcapacity hopen hfifo (hechoStep 1)
    exact .inl ⟨⟨n, hclient⟩, ⟨0, hpc⟩, hfifo, hempty⟩
  | prompt ms hclient =>
    have hstep := hclientStep 0
    simp only [client, hclient] at hstep
    split at hstep <;> cases hstep
  | sending ms line n unsent hclient hecho hempty =>
    have hopen := echoOpen_of_reading hecho
    -- the same the other way round
    have hfifo := clientFifo_eq_nil hecho (hechoStep 1)
    obtain ⟨hpc, -⟩ := hclient.eq_reply hcapacity hopen hfifo (hclientStep 1)
    exact .inl ⟨⟨0, .inr hpc⟩, ⟨n, hecho⟩, hempty, hfifo⟩
  | ended ms hclient hecho hcempty heempty hms hlines hprinted hsent hreceived =>
    subst hlines
    refine .inr ⟨hms, hclient, ?_, hcempty, heempty, hprinted, hsent, hreceived⟩
    refine hecho.resolve_left fun hpc => ?_
    -- the client has closed its end
    have hstep := hechoStep 0
    have hclosed : s.clientOpen = false := by rw [State.clientOpen, hclient]
    simp only [echo, hpc, hcempty, hclosed, Option.map_eq_none_iff] at hstep
    cases hstep

/-- Both processes wait only for the end of a text without newline. -/
theorem Stage.of_deadlocked (hs : Stage lines s) (hd : Deadlocked s) :
    ∃ line ∈ lines, newline ∉ line.takeWhile (· ≠ 0) := by
  obtain ⟨⟨k, hclientPc⟩, ⟨j, hechoPc⟩, hechoFifo, hclientFifo⟩ := hd
  cases hs with
  | receiving ms m n unsent hclient hecho hempty hrec hm =>
    have hnil : unsent = [] := by
      rcases hecho with ⟨k', l, hpc, -⟩ | ⟨-, hnil⟩
      · rw [hechoPc] at hpc
        cases hpc
      · exact hnil
    -- the whole message has been received, without its newline
    have hflow := hrec.flow
    rw [hechoFifo, hnil, List.append_nil, List.append_nil] at hflow
    exact absurd (hflow ▸ hm.line.mem) hrec.unbroken
  | prompt ms hclient =>
    rw [hclient] at hclientPc
    rcases hclientPc with hpc | hpc <;> cases hpc
  | sending ms line n unsent hclient hecho hempty hrec htext hunbroken hlen hms hlines =>
    have hnil : unsent = [] := by
      rcases hclient with ⟨k', l, hpc, -⟩ | ⟨-, hnil⟩
      · rw [hpc] at hclientPc
        rcases hclientPc with hpc' | hpc' <;> cases hpc'
      · exact hnil
    have hflow := hrec.flow
    rw [hclientFifo, hnil, List.append_nil, List.append_nil] at hflow
    refine ⟨line, ?_, hflow ▸ hrec.unbroken⟩
    rw [hlines]
    exact List.mem_append_right _ List.mem_cons_self
  | ended ms hclient =>
    rw [hclient] at hclientPc
    rcases hclientPc with hpc | hpc <;> cases hpc

/-- Every session comes to an end of some kind. -/
theorem exists_quiescent {stdin : List Byte} (h : (program capacity stdin).Reachable s) :
    ∃ s', (program capacity stdin).Reachable s' ∧
      (program capacity stdin).Quiescent Agent.isMoved s' := by
  refine h.exists_quiescent (μ := State.stepsLeft) ?_
  intro s t s' hstep ht
  exact step_stepsLeft_lt hstep ht

/-- The first state, of a client and an echo process with zeros in their buffers. -/
theorem reachable_start (capacity : ℕ) (stdin : List Byte) :
    (program capacity stdin).Reachable (start stdin (fun _ => 0) fun _ => 0) :=
  .init ⟨_, _, rfl⟩

/-! ### Sessions of messages -/

/-- What has been printed, sent and received, in step. -/
structure InStep (lines : List (List Byte)) (s : State) : Prop where
  printed : s.printed <+: welcome :: lines
  sent : s.sent <+: lines
  received : s.received <+: s.sent
  sent_le : s.sent.length ≤ s.printed.length
  printed_le : s.printed.length ≤ s.received.length + 1
  between : s.client = .prompt → s.echo = .reading 0 ∧ s.clientFifo = [] ∧ s.echoFifo = [] ∧
    s.printed = welcome :: s.sent ∧ s.received = s.sent

theorem Stage.inStep (hs : Stage lines s) (hlines : ∀ line ∈ lines, IsMessage line) :
    InStep lines s := by
  cases hs with
  | receiving ms m n unsent hclient hecho hempty hrec hm hms hall hprinted hsent hreceived =>
    have hlen := congrArg List.length hprinted
    rw [List.length_append, List.length_singleton, List.length_cons] at hlen
    refine ⟨?_, ?_, ?_, ?_, ?_, ?_⟩
    · refine (List.prefix_append s.printed [m]).trans ?_
      rw [hprinted, hall]
      exact List.prefix_append (welcome :: ms) _
    · rw [hsent, hall]
      exact List.prefix_append _ _
    · rw [hreceived, hsent]
    · rw [hsent]
      omega
    · rw [hreceived]
      omega
    · intro hpc
      rw [hpc] at hclient
      rcases hclient with hclient | hclient <;> cases hclient
  | prompt ms hclient hecho hcempty heempty hms hall hprinted hsent hreceived =>
    refine ⟨?_, ?_, ?_, ?_, ?_, fun _ => ⟨hecho, hcempty, heempty, ?_, ?_⟩⟩
    · rw [hprinted, hall]
      exact List.prefix_append (welcome :: ms) _
    · rw [hsent, hall]
      exact List.prefix_append _ _
    · rw [hreceived, hsent]
    · rw [hsent, hprinted]
      exact Nat.le_succ _
    · rw [hreceived, hprinted, List.length_cons]
    · rw [hprinted, hsent]
    · rw [hreceived, hsent]
  | sending ms line n unsent hclient hecho hempty hrec htext hunbroken hlen hms hall hprinted
      hsent hreceived =>
    -- the text is the line, and it may have been counted already
    have hline : line.takeWhile (· ≠ 0) = line := by
      refine takeWhile_eq_self (hlines line ?_).zero
      rw [hall]
      exact List.mem_append_right _ List.mem_cons_self
    rw [hline] at hsent
    have hms_sent : ms <+: s.sent := by
      rw [hsent]
      split
      · exact List.prefix_append _ _
      · exact List.prefix_rfl
    have hsent_ms : s.sent <+: ms ++ [line] := by
      rw [hsent]
      split
      · exact List.prefix_rfl
      · exact List.prefix_append _ _
    refine ⟨?_, hsent_ms.trans ?_, ?_, ?_, ?_, ?_⟩
    · rw [hprinted, hall]
      exact List.prefix_append (welcome :: ms) _
    · rw [hall, List.prefix_append_right_inj]
      exact List.cons_prefix_cons.mpr ⟨rfl, List.nil_prefix⟩
    · rw [hreceived]
      exact hms_sent
    · have hle := hsent_ms.length_le
      rw [List.length_append, List.length_singleton] at hle
      rw [hprinted, List.length_cons]
      exact hle
    · rw [hreceived, hprinted, List.length_cons]
    · intro hpc
      rcases hclient with ⟨k, l, hclient, -⟩ | ⟨hclient, -⟩
      all_goals
        rw [hpc] at hclient
        cases hclient
  | ended ms hclient hecho hcempty heempty hms hall hprinted hsent hreceived =>
    subst hall
    refine ⟨?_, ?_, ?_, ?_, ?_, ?_⟩
    · rw [hprinted]
    · rw [hsent]
    · rw [hreceived, hsent]
    · rw [hsent, hprinted]
      exact Nat.le_succ _
    · rw [hreceived, hprinted, List.length_cons]
    · intro hpc
      rw [hpc] at hclient
      cases hclient

/-- What `fgets` delivers of a stream of lines. -/
theorem stage_flatten (hlines : ∀ line ∈ lines, IsLine newline (bufSize - 1) line)
    (h : (program capacity lines.flatten).Reachable s) : Stage lines s := by
  have hs := stage h
  rwa [Lines.pieces_flatten hlines] at hs

/-- Messages all make the round. -/
theorem ended_of_quiescent (hcapacity : 0 < capacity) (hlines : ∀ line ∈ lines, IsMessage line)
    (h : (program capacity lines.flatten).Reachable s)
    (hq : (program capacity lines.flatten).Quiescent Agent.isMoved s) : Ended lines s := by
  have hs := stage_flatten (fun line hline => (hlines line hline).line) h
  rcases hs.of_quiescent hcapacity hq with hd | ⟨-, hended⟩
  · obtain ⟨line, hline, hnewline⟩ := hs.of_deadlocked hd
    rw [takeWhile_eq_self (hlines line hline).zero] at hnewline
    exact absurd (hlines line hline).line.mem hnewline
  · exact hended

/-- **Echo fidelity**: the client prints the welcome message and then each line as it was
sent, the two processes stay in step with nothing in the FIFOs between rounds, and the
session does come to the end of its input.  The command comes back as well. -/
theorem echo_fidelity (hcapacity : 0 < capacity) (hlines : ∀ line ∈ lines, IsMessage line) :
    (∀ s, (program capacity lines.flatten).Reachable s → InStep lines s) ∧
    (∀ s, (program capacity lines.flatten).Reachable s →
      (program capacity lines.flatten).Quiescent Agent.isMoved s → Ended lines s) ∧
    ∀ s s' ts, (program capacity lines.flatten).init s →
      (program capacity lines.flatten).run s ts = some s' → ts.countP Agent.isMoved ≤
        ((byteLeft + 1) * bufSize + 1) * lines.flatten.length + byteLeft + 1 := by
  refine ⟨?_, ?_, ?_⟩
  · intro s h
    exact (stage_flatten (fun line hline => (hlines line hline).line) h).inStep hlines
  · intro s h hq
    exact ended_of_quiescent hcapacity hlines h hq
  · rintro s s' ts ⟨clientBuf, echoBuf, hstart⟩ hrun
    have hbound := run_countP_le hrun
    have hle := start_stepsLeft lines.flatten clientBuf echoBuf
    rw [← hstart] at hle
    omega

/-- The quit command is the second of three messages. -/
def threeMessages : List (List Byte) :=
  [charBytes "hi", charBytes "QUIT", charBytes "hello"].map fun body => body ++ [newline]

/-- Three messages through FIFOs of two bytes: the quit command does not end the session. -/
theorem echo_fidelity_three : ∃ s, (program 2 threeMessages.flatten).Reachable s ∧
    s.printed.length = 4 ∧ Ended threeMessages s ∧ InStep threeMessages s := by
  have hbodies : ∀ body ∈ [charBytes "hi", charBytes "QUIT", charBytes "hello"],
      newline ∉ body ∧ body.length < bufSize - 1 ∧ 0 ∉ body ++ [newline] := by
    decide
  have hlines : ∀ line ∈ threeMessages, IsMessage line :=
    List.forall_mem_map.mpr fun body hbody =>
      have ⟨hnewline, hlen, hzero⟩ := hbodies body hbody
      ⟨Lines.isLine_append hnewline hlen, hzero⟩
  obtain ⟨s, hs, hq⟩ := exists_quiescent (reachable_start 2 threeMessages.flatten)
  have hfidelity := echo_fidelity (by decide : 0 < 2) hlines
  have hended := hfidelity.2.1 s hs hq
  refine ⟨s, hs, ?_, hended, hfidelity.1 s hs⟩
  rw [hended.printed]
  rfl

/-! ### Quitting -/

/-- The text of a line or of a message: up to the first zero, and to the newline. -/
def text (m : List Byte) : List Byte := (m.takeWhile (· ≠ 0)).takeWhile (· ≠ newline)

/-- Each process is out of its loop when it has sent, or received, the command, and only then. -/
structure Agreement (s : State) : Prop where
  client : s.client = .left ↔ ∃ m ∈ s.sent, text m = QUIT_COMMAND
  echo : s.echo = .left ↔ ∃ m ∈ s.received, text m = QUIT_COMMAND

theorem ne_left_of_open (hclient : s.clientOpen = true) (hecho : s.echoOpen = true) :
    s.client ≠ .left ∧ s.echo ≠ .left := by
  constructor
  · intro hpc
    rw [State.clientOpen, hpc] at hclient
    cases hclient
  · intro hpc
    rw [State.echoOpen, hpc] at hecho
    cases hecho

/-- At no stage has a process left its loop. -/
theorem Stage.ne_left (hs : Stage lines s) : s.client ≠ .left ∧ s.echo ≠ .left := by
  cases hs with
  | receiving ms m n unsent hclient hecho =>
    exact ne_left_of_open (clientOpen_of_reading hclient) hecho.echoOpen
  | prompt ms hclient hecho =>
    rw [hclient, hecho]
    exact ⟨ClientPc.noConfusion, EchoPc.noConfusion⟩
  | sending ms line n unsent hclient hecho =>
    exact ne_left_of_open hclient.clientOpen (echoOpen_of_reading hecho)
  | ended ms hclient hecho =>
    rw [hclient]
    refine ⟨ClientPc.noConfusion, ?_⟩
    rcases hecho with hecho | hecho <;> rw [hecho] <;> exact EchoPc.noConfusion

/-- What has been sent and received has the text of a line. -/
theorem Stage.text_mem (hs : Stage lines s) {m : List Byte} (hm : m ∈ s.sent ∨ m ∈ s.received) :
    ∃ line ∈ lines, text line = text m := by
  have hround : ∀ ms rest, lines = ms ++ rest → m ∈ ms → ∃ line ∈ lines, text line = text m := by
    rintro ms rest rfl hmem
    exact ⟨m, List.mem_append_left _ hmem, rfl⟩
  cases hs with
  | receiving ms m' n unsent hclient hecho hempty hrec hm' hms hall hprinted hsent hreceived =>
    rw [hsent, hreceived, or_self] at hm
    exact hround ms _ hall hm
  | prompt ms hclient hecho hcempty heempty hms hall hprinted hsent hreceived =>
    rw [hsent, hreceived, or_self] at hm
    exact hround ms _ hall hm
  | sending ms line n unsent hclient hecho hempty hrec htext hunbroken hlen hms hall hprinted
      hsent hreceived =>
    rw [hsent, hreceived] at hm
    by_cases hmem : m ∈ ms
    · exact hround ms _ hall hmem
    · have hm' : m = line.takeWhile (· ≠ 0) := by
        rcases hm with hm | hm
        · split at hm
          · exact List.mem_singleton.mp ((List.mem_append.mp hm).resolve_left hmem)
          · exact absurd hm hmem
        · exact absurd hm hmem
      refine ⟨line, ?_, ?_⟩
      · rw [hall]
        exact List.mem_append_right _ List.mem_cons_self
      · rw [hm', text, text, List.takeWhile_idem]
  | ended ms hclient hecho hcempty heempty hms hall hprinted hsent hreceived =>
    rw [hsent, hreceived, or_self] at hm
    exact hround ms [] (hall.trans (List.append_nil ms).symm) hm

/-- **Quitting**: the two processes leave their loops at the command, and only then, if and
only if it is never typed. -/
theorem quit_agreement (hlines : ∀ line ∈ lines, IsLine newline (bufSize - 1) line) :
    (∀ s, (program capacity lines.flatten).Reachable s → Agreement s ∧
      ((program capacity lines.flatten).Quiescent Agent.isMoved s →
        (∃ line ∈ lines, text line = QUIT_COMMAND) → s.client = .left ∧ s.echo = .left)) ↔
    ∀ line ∈ lines, text line ≠ QUIT_COMMAND := by
  constructor
  · intro hquit line hline htext
    obtain ⟨s, hs, hq⟩ := exists_quiescent (reachable_start capacity lines.flatten)
    have hleft := (hquit s hs).2 hq ⟨line, hline, htext⟩
    exact (stage_flatten hlines hs).ne_left.1 hleft.1
  · intro hne s hs
    have hstage := stage_flatten hlines hs
    have hno : ∀ m, m ∈ s.sent ∨ m ∈ s.received → text m ≠ QUIT_COMMAND := by
      intro m hm
      obtain ⟨line, hline, htext⟩ := hstage.text_mem hm
      rw [← htext]
      exact hne line hline
    refine ⟨⟨?_, ?_⟩, ?_⟩
    · refine ⟨fun hpc => absurd hpc hstage.ne_left.1, ?_⟩
      rintro ⟨m, hm, htext⟩
      exact absurd htext (hno m (.inl hm))
    · refine ⟨fun hpc => absurd hpc hstage.ne_left.2, ?_⟩
      rintro ⟨m, hm, htext⟩
      exact absurd htext (hno m (.inr hm))
    · rintro - ⟨line, hline, htext⟩
      exact absurd htext (hne line hline)

theorem isLine_quit :
    ∀ line ∈ [QUIT_COMMAND ++ [newline]], IsLine newline (bufSize - 1) line :=
  List.forall_mem_singleton.mpr (Lines.isLine_append (by decide) (by decide))

theorem quit_agreement_quit :
    ¬ ∀ s, (program 65536 [QUIT_COMMAND ++ [newline]].flatten).Reachable s → Agreement s ∧
      ((program 65536 [QUIT_COMMAND ++ [newline]].flatten).Quiescent Agent.isMoved s →
        (∃ line ∈ [QUIT_COMMAND ++ [newline]], text line = QUIT_COMMAND) →
        s.client = .left ∧ s.echo = .left) := by
  intro h
  exact (quit_agreement isLine_quit).mp h _ List.mem_cons_self (by decide)

/-- The user types the command: it comes back like any other line. -/
theorem quit_echoed :
    ∃ s, (program 65536 (charBytes "QUIT\n")).Reachable s ∧ s.sent = [charBytes "QUIT\n"] ∧
      s.received = [charBytes "QUIT\n"] ∧ s.client ≠ .left ∧ s.echo ≠ .left ∧ ¬ Agreement s := by
  have hlines : ∀ line ∈ [QUIT_COMMAND ++ [newline]], IsMessage line :=
    List.forall_mem_singleton.mpr ⟨isLine_quit _ List.mem_cons_self, by decide⟩
  have hstdin : charBytes "QUIT\n" = [QUIT_COMMAND ++ [newline]].flatten := by decide
  obtain ⟨s, hs, hq⟩ := exists_quiescent
    (reachable_start 65536 [QUIT_COMMAND ++ [newline]].flatten)
  have hended := ended_of_quiescent (by decide) hlines hs hq
  have hleft := (stage_flatten isLine_quit hs).ne_left
  refine ⟨s, hstdin ▸ hs, hended.sent, hended.received, hleft.1, hleft.2, fun hagree => ?_⟩
  refine hleft.1 (hagree.client.mpr ⟨QUIT_COMMAND ++ [newline], ?_, by decide⟩)
  rw [hended.sent]
  exact List.mem_cons_self

/-! ### Deadlock -/

/-- A line that is no message leaves both processes waiting. -/
theorem exists_deadlocked {stdin : List Byte} (hcapacity : 0 < capacity)
    (hline : ¬ ∀ line ∈ pieces newline (bufSize - 1) stdin, IsMessage line) :
    ∃ s, (program capacity stdin).Reachable s ∧ Deadlocked s := by
  obtain ⟨s, hs, hq⟩ := exists_quiescent (reachable_start capacity stdin)
  refine ⟨s, hs, ((stage hs).of_quiescent hcapacity hq).resolve_right fun hended => ?_⟩
  exact hline hended.1

/-- **Deadlock**: no schedule leads to one if and only if every piece that `fgets` delivers
ends with a newline and has no zeros. -/
theorem never_both_waiting (hcapacity : 0 < capacity) (stdin : List Byte) :
    (∀ s, (program capacity stdin).Reachable s → ¬ Deadlocked s) ↔
      ∀ line ∈ pieces newline (bufSize - 1) stdin, newline ∈ line ∧ 0 ∉ line := by
  constructor
  · intro hno line hline
    by_contra hbad
    obtain ⟨s, hs, hd⟩ := exists_deadlocked hcapacity fun hall =>
      hbad ⟨(hall line hline).line.mem, (hall line hline).zero⟩
    exact hno s hs hd
  · intro hall s hs hd
    obtain ⟨line, hline, hnewline⟩ := (stage hs).of_deadlocked hd
    obtain ⟨hmem, hzero⟩ := hall line hline
    rw [takeWhile_eq_self hzero] at hnewline
    exact hnewline hmem

/-- What `fgets` delivers of a short input. -/
theorem pieces_append (body : List Byte) (hbody : newline ∉ body)
    (hlen : body.length < bufSize - 1) :
    pieces newline (bufSize - 1) (body ++ [newline]) = [body ++ [newline]] := by
  have hlines : ∀ line ∈ [body ++ [newline]], IsLine newline (bufSize - 1) line :=
    List.forall_mem_singleton.mpr (Lines.isLine_append hbody hlen)
  have hpieces := Lines.pieces_flatten hlines
  rwa [List.flatten_singleton] at hpieces

theorem never_both_waiting_hi :
    ∃ s, (program 65536 (charBytes "hi" ++ [newline])).Reachable s ∧
      (program 65536 (charBytes "hi" ++ [newline])).Quiescent Agent.isMoved s ∧ ¬ Deadlocked s := by
  obtain ⟨s, hs, hq⟩ := exists_quiescent (reachable_start 65536 _)
  refine ⟨s, hs, hq, (never_both_waiting (by decide) _).mpr ?_ s hs⟩
  rw [pieces_append (charBytes "hi") (by decide) (by decide)]
  decide

/-- A zero in a line. -/
theorem deadlock_zero :
    ∃ s, (program 65536 [97, 0, newline]).Reachable s ∧ Deadlocked s := by
  refine exists_deadlocked (by decide) ?_
  have hpieces : pieces newline (bufSize - 1) [97, 0, newline] = [[97, 0, newline]] :=
    pieces_append [97, 0] (by decide) (by decide)
  rw [hpieces]
  intro hall
  exact (hall _ List.mem_cons_self).zero (by decide)

end EchoFifo
