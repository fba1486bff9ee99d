/-
The rounds of the echo program of Lab06/03.

* `Stage` — where the two processes are: the echo process sends and the client receives,
  the client waits for its user, the client sends and the echo process receives, or
  the input is over;
* `stage` — in every reachable state they are at one of these stages, whatever the user
  types and whatever the schedule.
-/
import SistemiDiCalcolo.EchoFifo

open AccessLog (Byte)
open Memory (cString strlen)
open Lines (IsLine Unbroken takeLine pieces)

namespace EchoFifo

variable {capacity : ℕ} {s s' : State} {ret : Ret} {fifo unsent m : List Byte} {buf : Memory Byte}
  {n : ℕ} {isOpen : Bool}

/-! ### The calls -/

theorem readOneByOne_cases {sep : Byte} {r : ReadPass}
    (h : readOneByOne fifo isOpen buf n sep ret = some r) :
    ret.isMoved = false ∧ r = .again ∨ fifo = [] ∧ isOpen = false ∧ r = .failed ∨
      ∃ b rest, fifo = b :: rest ∧ r = .byte rest (buf.store n [b]) (b = sep) := by
  unfold readOneByOne at h
  split at h
  · cases h
    exact .inl ⟨rfl, rfl⟩
  · split at h <;> cases h
    next hopen => exact .inr (.inl ⟨rfl, Bool.eq_false_of_not_eq_true hopen, rfl⟩)
  · next b rest =>
    cases h
    exact .inr (.inr ⟨b, rest, rfl, rfl⟩)
  · cases h

theorem writeMsg_cases {bytes_sent bytes_left : ℕ} {r : WritePass}
    (h : writeMsg capacity fifo isOpen buf bytes_sent bytes_left ret = some r) :
    ret.isMoved = false ∧ r = .again ∨ isOpen = false ∧ r = .failed ∨
      ∃ k, 0 < k ∧ k ≤ bytes_left ∧
        r = .wrote (fifo ++ buf.load bytes_sent k) (bytes_sent + k) (bytes_left - k) := by
  unfold writeMsg at h
  split at h
  · split at h
    · cases h
      exact .inl ⟨rfl, rfl⟩
    · next k =>
      split at h <;> cases h
      next hk => exact .inr (.inr ⟨k, hk.1, hk.2.1, rfl⟩)
  · next hopen =>
    cases h
    exact .inr (.inl ⟨Bool.eq_false_of_not_eq_true hopen, rfl⟩)

/-- Neither variable that the client compares is the length of the command. -/
theorem clientHasSent_eq : s.clientHasSent =
    { s with client := .reply 0, sent := s.sent ++ [cString bufSize s.clientBuf] } := by
  have hne : ¬ ((0 - 1 : CInt).signExtend 64 = BitVec.ofNat 64 QUIT_COMMAND.length ∧
      s.clientBuf.load 0 QUIT_COMMAND.length = QUIT_COMMAND) := fun h => absurd h.1 (by decide)
  simp only [State.clientHasSent]
  rw [if_neg hne]

/-- The echo process in `readOneByOne`. -/
theorem echo_reading (hpc : s.echo = .reading n) (h : echo capacity s ret = some s') :
    ret.isMoved = false ∧ s' = s ∨ s.clientOpen = false ∧ s' = { s with echo := .failed } ∨
      ∃ b rest, s.clientFifo = b :: rest ∧
        (b ≠ newline ∧ s' = { s with
            clientFifo := rest
            echo := .reading (n + 1)
            echoBuf := s.echoBuf.store n [b] } ∨
          b = newline ∧ s' = State.echoReceives { s with clientFifo := rest }
            (s.echoBuf.store n [b]) (n + 1)) := by
  rw [echo, hpc] at h
  obtain ⟨r, hr, hs'⟩ := Option.map_eq_some_iff.mp h
  rcases readOneByOne_cases hr with ⟨hret, rfl⟩ | ⟨-, hclosed, rfl⟩ | ⟨b, rest, hfifo, rfl⟩
  · exact .inl ⟨hret, hs'.symm⟩
  · exact .inr (.inl ⟨hclosed, hs'.symm⟩)
  · refine .inr (.inr ⟨b, rest, hfifo, ?_⟩)
    by_cases hb : b = newline
    · rw [decide_eq_true hb] at hs'
      exact .inr ⟨hb, hs'.symm⟩
    · rw [decide_eq_false hb] at hs'
      exact .inl ⟨hb, hs'.symm⟩

/-- The client in `readOneByOne`, for the welcome message or for a reply. -/
theorem client_reading (hpc : s.client = .welcome n ∨ s.client = .reply n)
    (h : client capacity s ret = some s') :
    ret.isMoved = false ∧ s' = s ∨ s.echoOpen = false ∧ s' = { s with client := .failed } ∨
      ∃ b rest, s.echoFifo = b :: rest ∧
        (b ≠ newline ∧ (∃ pc, (pc = .welcome (n + 1) ∨ pc = .reply (n + 1)) ∧ s' = { s with
            echoFifo := rest
            client := pc
            clientBuf := s.clientBuf.store n [b] }) ∨
          b = newline ∧ s' = State.clientReceives { s with echoFifo := rest }
            (s.clientBuf.store n [b]) (n + 1)) := by
  rcases hpc with hpc | hpc
  all_goals
    simp only [client, hpc] at h
    obtain ⟨r, hr, hs'⟩ := Option.map_eq_some_iff.mp h
    rcases readOneByOne_cases hr with ⟨hret, rfl⟩ | ⟨-, hclosed, rfl⟩ | ⟨b, rest, hfifo, rfl⟩
    · exact .inl ⟨hret, hs'.symm⟩
    · exact .inr (.inl ⟨hclosed, hs'.symm⟩)
    · refine .inr (.inr ⟨b, rest, hfifo, ?_⟩)
      by_cases hb : b = newline
      · rw [decide_eq_true hb] at hs'
        exact .inr ⟨hb, hs'.symm⟩
      · rw [decide_eq_false hb] at hs'
        exact .inl ⟨hb, _, by simp, hs'.symm⟩

/-- The echo process in `writeMsg`. -/
theorem echo_writing {k l : ℕ} (hpc : s.echo = .writing k l)
    (h : echo capacity s ret = some s') :
    ret.isMoved = false ∧ s' = s ∨ s.clientOpen = false ∧ s' = { s with echo := .failed } ∨
      ∃ i, 0 < i ∧ i ≤ l ∧ s' = { s with
        echoFifo := s.echoFifo ++ s.echoBuf.load k i
        echo := if 0 < l - i then .writing (k + i) (l - i) else .reading 0 } := by
  rw [echo, hpc] at h
  obtain ⟨r, hr, hs'⟩ := Option.map_eq_some_iff.mp h
  rcases writeMsg_cases hr with ⟨hret, rfl⟩ | ⟨hclosed, rfl⟩ | ⟨i, hi, hil, rfl⟩
  · exact .inl ⟨hret, hs'.symm⟩
  · exact .inr (.inl ⟨hclosed, hs'.symm⟩)
  · refine .inr (.inr ⟨i, hi, hil, ?_⟩)
    by_cases hleft : 0 < l - i
    · simp only [if_pos hleft] at hs' ⊢
      exact hs'.symm
    · simp only [if_neg hleft] at hs' ⊢
      exact hs'.symm

/-- The client in `writeMsg`: its message counts as sent with its last byte. -/
theorem client_writing {k l : ℕ} (hpc : s.client = .writing k l)
    (h : client capacity s ret = some s') :
    ret.isMoved = false ∧ s' = s ∨ s.echoOpen = false ∧ s' = { s with client := .failed } ∨
      ∃ i, 0 < i ∧ i ≤ l ∧
        (0 < l - i ∧ s' = { s with
            clientFifo := s.clientFifo ++ s.clientBuf.load k i
            client := .writing (k + i) (l - i) } ∨
          l - i = 0 ∧ s' = { s with
            clientFifo := s.clientFifo ++ s.clientBuf.load k i
            client := .reply 0
            sent := s.sent ++ [cString bufSize s.clientBuf] }) := by
  simp only [client, hpc] at h
  obtain ⟨r, hr, hs'⟩ := Option.map_eq_some_iff.mp h
  rcases writeMsg_cases hr with ⟨hret, rfl⟩ | ⟨hclosed, rfl⟩ | ⟨i, hi, hil, rfl⟩
  · exact .inl ⟨hret, hs'.symm⟩
  · exact .inr (.inl ⟨hclosed, hs'.symm⟩)
  · refine .inr (.inr ⟨i, hi, hil, ?_⟩)
    by_cases hleft : 0 < l - i
    · simp only [if_pos hleft] at hs'
      exact .inl ⟨hleft, hs'.symm⟩
    · simp only [if_neg hleft, clientHasSent_eq] at hs'
      exact .inr ⟨Nat.eq_zero_of_not_pos hleft, hs'.symm⟩

/-- The client in `fgets`. -/
theorem client_prompt (hpc : s.client = .prompt) (h : client capacity s ret = some s') :
    s.stdin = [] ∧ s' = { s with client := .failed } ∨
      s.stdin ≠ [] ∧ s' = s.clientSends (takeLine newline (bufSize - 1) s.stdin) := by
  simp only [client, hpc] at h
  cases ret with
  | eintr => cases h
  | moved k =>
    simp only at h
    split at h
    · next hstdin => exact .inl ⟨hstdin, (Option.some.inj h).symm⟩
    · next hstdin => exact .inr ⟨hstdin, (Option.some.inj h).symm⟩

/-! ### What a process has still to send -/

/-- The echo process has `unsent` left of its message, or has gone back to read. -/
def EchoSending (s : State) (unsent : List Byte) : Prop :=
  (∃ k l, s.echo = .writing k l ∧ 0 < l ∧ s.echoBuf.load k l = unsent) ∨
    s.echo = .reading 0 ∧ unsent = []

def ClientSending (s : State) (unsent : List Byte) : Prop :=
  (∃ k l, s.client = .writing k l ∧ 0 < l ∧ s.clientBuf.load k l = unsent) ∨
    s.client = .reply 0 ∧ unsent = []

/-- A piece of a range, and the rest of it. -/
theorem load_append_load {k l i : ℕ} (hi : i ≤ l) :
    buf.load k i ++ buf.load (k + i) (l - i) = buf.load k l := by
  rw [← Memory.load_add, Nat.add_sub_cancel' hi]

theorem load_ne_nil {k l : ℕ} (hl : 0 < l) : buf.load k l ≠ [] := by
  intro hnil
  have hlen := congrArg List.length hnil
  rw [Memory.length_load] at hlen
  exact hl.ne' hlen

/-- While the client receives, the echo process only sends. -/
theorem EchoSending.step (hs : EchoSending s unsent) (hopen : s.clientOpen = true)
    (hempty : s.clientFifo = []) (h : echo capacity s ret = some s') :
    ∃ fifo unsent' pc, s' = { s with echoFifo := fifo, echo := pc } ∧
      fifo ++ unsent' = s.echoFifo ++ unsent ∧ EchoSending s' unsent' := by
  have hsame : ∃ fifo unsent' pc, s = { s with echoFifo := fifo, echo := pc } ∧
      fifo ++ unsent' = s.echoFifo ++ unsent ∧ EchoSending s unsent' :=
    ⟨s.echoFifo, unsent, s.echo, rfl, rfl, hs⟩
  rcases hs with ⟨k, l, hpc, hl, hload⟩ | ⟨hpc, rfl⟩
  · rcases echo_writing hpc h with ⟨-, rfl⟩ | ⟨hclosed, -⟩ | ⟨i, hi, hil, rfl⟩
    · exact hsame
    · rw [hopen] at hclosed
      cases hclosed
    · rw [← hload, ← load_append_load hil, ← List.append_assoc]
      by_cases hleft : 0 < l - i
      · rw [if_pos hleft]
        exact ⟨_, _, _, rfl, rfl, .inl ⟨_, _, rfl, hleft, rfl⟩⟩
      · rw [if_neg hleft, Nat.eq_zero_of_not_pos hleft]
        exact ⟨_, [], .reading 0, rfl, rfl, .inr ⟨rfl, rfl⟩⟩
  · rcases echo_reading hpc h with ⟨-, rfl⟩ | ⟨hclosed, -⟩ | ⟨b, rest, hfifo, -⟩
    · exact hsame
    · rw [hopen] at hclosed
      cases hclosed
    · rw [hempty] at hfifo
      cases hfifo

/-- While the echo process receives, the client only sends. -/
theorem ClientSending.step (hs : ClientSending s unsent) (hopen : s.echoOpen = true)
    (hempty : s.echoFifo = []) (h : client capacity s ret = some s') :
    ∃ fifo unsent' pc, s' = { s with
        clientFifo := fifo
        client := pc
        sent := if unsent ≠ [] ∧ unsent' = [] then s.sent ++ [cString bufSize s.clientBuf]
          else s.sent } ∧
      fifo ++ unsent' = s.clientFifo ++ unsent ∧ (unsent = [] → unsent' = []) ∧
      ClientSending s' unsent' := by
  rcases hs with ⟨k, l, hpc, hl, hload⟩ | ⟨hpc, rfl⟩
  · have hne : unsent ≠ [] := hload ▸ load_ne_nil hl
    rcases client_writing hpc h with
      ⟨-, rfl⟩ | ⟨hclosed, -⟩ | ⟨i, hi, hil, ⟨hleft, rfl⟩ | ⟨hleft, rfl⟩⟩
    · refine ⟨s'.clientFifo, unsent, s'.client, ?_, rfl, id, .inl ⟨k, l, hpc, hl, hload⟩⟩
      rw [if_neg fun h => hne h.2]
    · rw [hopen] at hclosed
      cases hclosed
    · refine ⟨s.clientFifo ++ s.clientBuf.load k i, s.clientBuf.load (k + i) (l - i),
        .writing (k + i) (l - i), ?_, ?_, fun h => absurd h hne,
        .inl ⟨k + i, l - i, rfl, hleft, rfl⟩⟩
      · rw [if_neg fun h => load_ne_nil hleft h.2]
      · rw [← hload, ← load_append_load hil, List.append_assoc]
    · refine ⟨s.clientFifo ++ s.clientBuf.load k i, [], .reply 0, ?_, ?_, fun _ => rfl,
        .inr ⟨rfl, rfl⟩⟩
      · rw [if_pos ⟨hne, rfl⟩]
      · rw [← hload, ← load_append_load hil, hleft, Memory.load_zero, List.append_nil,
          List.append_nil]
  · rcases client_reading (.inr hpc) h with ⟨-, rfl⟩ | ⟨hclosed, -⟩ | ⟨b, rest, hfifo, -⟩
    · refine ⟨s'.clientFifo, [], s'.client, ?_, rfl, id, .inr ⟨hpc, rfl⟩⟩
      rw [if_neg fun h => h.1 rfl]
    · rw [hopen] at hclosed
      cases hclosed
    · rw [hempty] at hfifo
      cases hfifo

/-! ### What a process has received -/

/-- A message: a line that fits in the buffers, without zeros. -/
structure IsMessage (m : List Byte) : Prop where
  line : IsLine newline (bufSize - 1) m
  zero : 0 ∉ m

theorem takeWhile_eq_self (hm : 0 ∉ m) : m.takeWhile (· ≠ 0) = m :=
  List.takeWhile_eq_self_iff.mpr fun _ hx => decide_eq_true fun hzero => hm (hzero ▸ hx)

theorem isMessage_welcome : IsMessage welcome := by
  have hwelcome : welcome = welcome.dropLast ++ [newline] ∧ newline ∉ welcome.dropLast ∧
      welcome.dropLast.length < bufSize - 1 ∧ 0 ∉ welcome := by
    decide +kernel
  obtain ⟨heq, hbody, hlen, hzero⟩ := hwelcome
  refine ⟨?_, hzero⟩
  rw [heq]
  exact Lines.isLine_append hbody hlen

/-- `buf` begins with `n` bytes of `m`, with no newline, and the others are to come. -/
structure Receiving (buf : Memory Byte) (n : ℕ) (rest m : List Byte) : Prop where
  flow : buf.load 0 n ++ rest = m
  unbroken : newline ∉ buf.load 0 n

/-- A byte that is not the separator. -/
theorem Receiving.more {b : Byte} {rest : List Byte} (h : Receiving buf n (b :: rest) m)
    (hb : b ≠ newline) : Receiving (buf.store n [b]) (n + 1) rest m := by
  have hload : (buf.store n [b]).load 0 (n + 1) = buf.load 0 n ++ [b] :=
    Memory.load_store_append (Nat.zero_add n) rfl
  refine ⟨?_, ?_⟩
  · rw [hload, List.append_assoc]
    exact h.flow
  · rw [hload, List.mem_append, List.mem_singleton]
    exact fun hmem => hmem.elim h.unbroken fun heq => hb heq.symm

/-- The separator ends the message. -/
theorem Receiving.last {rest : List Byte} (h : Receiving buf n (newline :: rest) m)
    (hm : Unbroken newline m) :
    rest = [] ∧ m.length = n + 1 ∧ (buf.store n [newline]).load 0 (n + 1) = m ∧ newline ∈ m := by
  have hrest : rest = [] := hm _ _ h.flow.symm
  have hload : (buf.store n [newline]).load 0 (n + 1) = m := by
    rw [Memory.load_store_append (k := 1) (Nat.zero_add n) rfl, ← h.flow, hrest]
  refine ⟨hrest, ?_, hload, ?_⟩
  · rw [← hload, Memory.length_load]
  · rw [← h.flow]
    exact List.mem_append_right _ List.mem_cons_self

/-- The text of a buffer in which a message is terminated by a zero. -/
theorem IsMessage.cString_eq (hm : IsMessage m) {k : ℕ} (hk : m.length = k)
    (hload : buf.load 0 k = m) : cString bufSize (buf.store k [0]) = m := by
  have hle := hm.line.length_le
  refine Memory.cString_eq (n := k) ?_ ?_ ?_ hm.zero
  · rw [← hk]
    exact Nat.lt_of_le_pred (by decide) hle
  · rw [Memory.load_store_end, hload]
  · have hzero : (buf.store k [0]) (k + 0) = [(0 : Byte)][0] := Memory.store_add Nat.one_pos
    exact hzero

/-! ### The stages -/

/-- Where the two processes are, `lines` being what `fgets` delivers and `ms` the messages
that have made the round. -/
inductive Stage (lines : List (List Byte)) (s : State) : Prop
  /-- The echo process sends `m`, and the client receives it. -/
  | receiving (ms : List (List Byte)) (m : List Byte) (n : ℕ) (unsent : List Byte) :
      s.client = .welcome n ∨ s.client = .reply n → EchoSending s unsent → s.clientFifo = [] →
      Receiving s.clientBuf n (s.echoFifo ++ unsent) m → IsMessage m →
      (∀ x ∈ ms, IsMessage x) → lines = ms ++ pieces newline (bufSize - 1) s.stdin →
      s.printed ++ [m] = EchoFifo.welcome :: ms → s.sent = ms → s.received = ms → Stage lines s
  /-- The client waits for its user. -/
  | prompt (ms : List (List Byte)) :
      s.client = .prompt → s.echo = .reading 0 → s.clientFifo = [] → s.echoFifo = [] →
      (∀ x ∈ ms, IsMessage x) → lines = ms ++ pieces newline (bufSize - 1) s.stdin →
      s.printed = EchoFifo.welcome :: ms → s.sent = ms → s.received = ms → Stage lines s
  /-- The client sends the text of `line`, and the echo process receives it. -/
  | sending (ms : List (List Byte)) (line : List Byte) (n : ℕ) (unsent : List Byte) :
      ClientSending s unsent → s.echo = .reading n → s.echoFifo = [] →
      Receiving s.echoBuf n (s.clientFifo ++ unsent) (line.takeWhile (· ≠ 0)) →
      cString bufSize s.clientBuf = line.takeWhile (· ≠ 0) →
      Unbroken newline line → line.length ≤ bufSize - 1 →
      (∀ x ∈ ms, IsMessage x) → lines = ms ++ line :: pieces newline (bufSize - 1) s.stdin →
      s.printed = EchoFifo.welcome :: ms →
      s.sent = (if unsent = [] then ms ++ [line.takeWhile (· ≠ 0)] else ms) → s.received = ms →
      Stage lines s
  /-- The input is over. -/
  | ended (ms : List (List Byte)) :
      s.client = .failed → s.echo = .reading 0 ∨ s.echo = .failed → s.clientFifo = [] →
      s.echoFifo = [] → (∀ x ∈ ms, IsMessage x) → lines = ms →
      s.printed = EchoFifo.welcome :: ms → s.sent = ms → s.received = ms → Stage lines s

variable {lines : List (List Byte)}

theorem clientOpen_of_reading (hpc : s.client = .welcome n ∨ s.client = .reply n) :
    s.clientOpen = true := by
  rcases hpc with hpc | hpc <;> rw [State.clientOpen, hpc]

theorem echoOpen_of_reading (hpc : s.echo = .reading n) : s.echoOpen = true := by
  rw [State.echoOpen, hpc]

theorem EchoSending.echoOpen (h : EchoSending s unsent) : s.echoOpen = true := by
  rcases h with ⟨k, l, hpc, -⟩ | ⟨hpc, -⟩ <;> rw [State.echoOpen, hpc]

theorem ClientSending.clientOpen (h : ClientSending s unsent) : s.clientOpen = true := by
  rcases h with ⟨k, l, hpc, -⟩ | ⟨hpc, -⟩ <;> rw [State.clientOpen, hpc]

/-- What the client has received is a message: it prints it and prompts again. -/
theorem clientReceives_eq (hm : IsMessage m) (hlen : m.length = n) (hload : buf.load 0 n = m) :
    s.clientReceives buf n = { s with
      client := .prompt
      clientBuf := buf.store n [0]
      printed := s.printed ++ [m] } := by
  rw [State.clientReceives, hm.cString_eq hlen hload]

/-- A message is never the command. -/
theorem ne_quit (hm : newline ∈ m) : m ≠ QUIT_COMMAND := by
  rintro rfl
  exact absurd hm (by decide)

/-- What the echo process has received is a message: it starts to send it back. -/
theorem echoReceives_eq (hm : IsMessage m) (hlen : m.length = n) (hload : buf.load 0 n = m) :
    s.echoReceives buf n = { s with
      echo := .writing 0 n
      echoBuf := buf.store n [0]
      received := s.received ++ [m] } := by
  have hstrlen : strlen bufSize (buf.store n [0]) = n := by
    rw [strlen, hm.cString_eq hlen hload, hlen]
  have hpos : n ≠ 0 := by
    rintro rfl
    rw [List.length_eq_zero_iff.mp hlen] at hm
    exact absurd hm.line.mem List.not_mem_nil
  have hquit : ¬ (n = QUIT_COMMAND.length ∧
      (buf.store n [0]).load 0 QUIT_COMMAND.length = QUIT_COMMAND) := by
    rintro ⟨rfl, hquit⟩
    rw [Memory.load_store_end, hload] at hquit
    exact ne_quit hm.line.mem hquit
  simp only [State.echoReceives, State.echoSends]
  rw [if_neg hquit, hstrlen, if_neg hpos, hload]

/-! ### The steps -/

theorem Stage.step_echo (hs : Stage lines s) (h : echo capacity s ret = some s') :
    Stage lines s' := by
  cases hs with
  | receiving ms m n unsent hclient hecho hempty hrec hm hms hlines hprinted hsent hreceived =>
    have hopen := clientOpen_of_reading hclient
    obtain ⟨fifo, unsent', pc, rfl, hflow, hecho'⟩ := hecho.step hopen hempty h
    refine .receiving ms m n unsent' hclient hecho' hempty ?_ hm hms hlines hprinted hsent hreceived
    show Receiving s.clientBuf n (fifo ++ unsent') m
    rw [hflow]
    exact hrec
  | prompt ms hclient hecho hcempty heempty hms hlines hprinted hsent hreceived =>
    rcases echo_reading hecho h with ⟨-, rfl⟩ | ⟨hclosed, -⟩ | ⟨b, rest, hfifo, -⟩
    · exact .prompt ms hclient hecho hcempty heempty hms hlines hprinted hsent hreceived
    · rw [State.clientOpen, hclient] at hclosed
      cases hclosed
    · rw [hcempty] at hfifo
      cases hfifo
  | sending ms line n unsent hclient hecho hempty hrec htext hunbroken hlen hms hlines hprinted
      hsent hreceived =>
    rcases echo_reading hecho h with
      ⟨-, rfl⟩ | ⟨hclosed, -⟩ | ⟨b, rest, hfifo, ⟨hb, rfl⟩ | ⟨rfl, rfl⟩⟩
    · exact .sending ms line n unsent hclient hecho hempty hrec htext hunbroken hlen hms hlines
        hprinted hsent hreceived
    · rw [hclient.clientOpen] at hclosed
      cases hclosed
    · rw [hfifo] at hrec
      exact .sending ms line (n + 1) unsent hclient rfl hempty (hrec.more hb) htext hunbroken hlen
        hms hlines hprinted hsent hreceived
    · -- the separator: the client has sent all, and its line is a message
      rw [hfifo] at hrec
      have hprefix : line.takeWhile (· ≠ 0) <+: line := List.takeWhile_prefix _
      obtain ⟨hrest, hlen', hload, hmem⟩ := hrec.last (hunbroken.of_prefix hprefix)
      obtain ⟨rfl, rfl⟩ := List.append_eq_nil_iff.mp hrest
      have hline : line.takeWhile (· ≠ 0) = line := hunbroken.eq_of_prefix hprefix hmem
      rw [hline] at hlen' hload hmem hsent
      have hm : IsMessage line := by
        refine ⟨⟨hunbroken, hmem, hlen⟩, ?_⟩
        rw [← hline, ← htext]
        exact Memory.zero_notMem_cString
      rw [if_pos rfl] at hsent
      rw [echoReceives_eq hm hlen' hload]
      rcases hclient with ⟨k, l, -, hl, hnil⟩ | ⟨hclient, -⟩
      · exact absurd hnil (load_ne_nil hl)
      · refine .receiving (ms ++ [line]) line 0 line (.inr hclient) (.inl ⟨0, n + 1, rfl, ?_, ?_⟩)
          rfl ⟨?_, List.not_mem_nil⟩ hm ?_ ?_ ?_ hsent ?_
        · exact Nat.succ_pos n
        · show Memory.load _ 0 (n + 1) = line
          rw [Memory.load_store_end, hload]
        · show [] ++ (s.echoFifo ++ line) = line
          rw [hempty, List.nil_append, List.nil_append]
        · intro x hx
          rcases List.mem_append.mp hx with hold | hnew
          · exact hms x hold
          · exact List.mem_singleton.mp hnew ▸ hm
        · rw [hlines, List.append_assoc]
          rfl
        · show s.printed ++ [line] = _
          rw [hprinted]
          rfl
        · show s.received ++ [line] = _
          rw [hreceived]
  | ended ms hclient hecho hcempty heempty hms hlines hprinted hsent hreceived =>
    rcases hecho with hecho | hecho
    · rcases echo_reading hecho h with ⟨-, rfl⟩ | ⟨-, rfl⟩ | ⟨b, rest, hfifo, -⟩
      · exact .ended ms hclient (.inl hecho) hcempty heempty hms hlines hprinted hsent hreceived
      · exact .ended ms hclient (.inr rfl) hcempty heempty hms hlines hprinted hsent hreceived
      · rw [hcempty] at hfifo
        cases hfifo
    · rw [echo, hecho] at h
      cases h

/-- `fgets` has returned a line: the client sends its text, which may be nothing. -/
theorem clientSends_cases {line : List Byte} (hlen : line.length ≤ bufSize - 1) :
    ∃ buf pc unsent, s.clientSends line = { s with
        stdin := s.stdin.drop line.length
        clientBuf := buf
        client := pc
        sent := if unsent = [] then s.sent ++ [line.takeWhile (· ≠ 0)] else s.sent } ∧
      cString bufSize buf = line.takeWhile (· ≠ 0) ∧ unsent = line.takeWhile (· ≠ 0) ∧
      ClientSending (s.clientSends line) unsent := by
  have htext : cString bufSize (s.clientBuf.store 0 (line ++ [0])) = line.takeWhile (· ≠ 0) :=
    Memory.cString_store (Nat.lt_of_le_pred (by decide) hlen)
  have hstrlen := congrArg List.length htext
  refine ⟨s.clientBuf.store 0 (line ++ [0]), ?_⟩
  by_cases hempty : strlen bufSize (s.clientBuf.store 0 (line ++ [0])) = 0
  · -- `writeMsg` has nothing to write
    have hnil : line.takeWhile (· ≠ 0) = [] := List.length_eq_zero_iff.mp (hstrlen ▸ hempty)
    have heq : s.clientSends line = { s with
        stdin := s.stdin.drop line.length
        clientBuf := s.clientBuf.store 0 (line ++ [0])
        client := .reply 0
        sent := s.sent ++ [line.takeWhile (· ≠ 0)] } := by
      simp only [State.clientSends]
      rw [if_pos hempty, clientHasSent_eq, htext]
    refine ⟨.reply 0, [], ?_, htext, hnil.symm, ?_⟩
    · rw [heq, if_pos rfl]
    · rw [heq]
      exact .inr ⟨rfl, rfl⟩
  · have hne : line.takeWhile (· ≠ 0) ≠ [] := by
      intro hnil
      rw [hnil] at hstrlen
      exact hempty hstrlen
    have heq : s.clientSends line = { s with
        stdin := s.stdin.drop line.length
        clientBuf := s.clientBuf.store 0 (line ++ [0])
        client := .writing 0 (strlen bufSize (s.clientBuf.store 0 (line ++ [0]))) } := by
      simp only [State.clientSends]
      rw [if_neg hempty]
    refine ⟨.writing 0 (strlen bufSize (s.clientBuf.store 0 (line ++ [0]))), _, ?_, htext, rfl, ?_⟩
    · rw [heq, if_neg hne]
    · rw [heq]
      exact .inl ⟨_, _, rfl, Nat.pos_of_ne_zero hempty, Memory.load_strlen.trans htext⟩

theorem Stage.step_client (hs : Stage lines s) (h : client capacity s ret = some s') :
    Stage lines s' := by
  cases hs with
  | receiving ms m n unsent hclient hecho hempty hrec hm hms hlines hprinted hsent hreceived =>
    rcases client_reading hclient h with
      ⟨-, rfl⟩ | ⟨hclosed, -⟩ | ⟨b, rest, hfifo, ⟨hb, pc, hpc, rfl⟩ | ⟨rfl, rfl⟩⟩
    · exact .receiving ms m n unsent hclient hecho hempty hrec hm hms hlines hprinted hsent
        hreceived
    · rw [hecho.echoOpen] at hclosed
      cases hclosed
    · rw [hfifo] at hrec
      exact .receiving ms m (n + 1) unsent hpc hecho hempty (hrec.more hb) hm hms hlines hprinted
        hsent hreceived
    · -- the separator: the echo process has sent all
      rw [hfifo] at hrec
      obtain ⟨hrest, hlen, hload, -⟩ := hrec.last hm.line.unbroken
      obtain ⟨rfl, rfl⟩ := List.append_eq_nil_iff.mp hrest
      rw [clientReceives_eq hm hlen hload]
      rcases hecho with ⟨k, l, -, hl, hnil⟩ | ⟨hecho, -⟩
      · exact absurd hnil (load_ne_nil hl)
      · exact .prompt ms rfl hecho hempty rfl hms hlines hprinted hsent hreceived
  | prompt ms hclient hecho hcempty heempty hms hlines hprinted hsent hreceived =>
    rcases client_prompt hclient h with ⟨hstdin, hs'⟩ | ⟨hstdin, hs'⟩
    · -- the end of the input
      rw [hstdin, Lines.pieces_nil, List.append_nil] at hlines
      rw [hs']
      exact .ended ms rfl (.inl hecho) hcempty heempty hms hlines hprinted hsent hreceived
    · -- a line
      have hlen : (takeLine newline (bufSize - 1) s.stdin).length ≤ bufSize - 1 :=
        Lines.length_takeLine_le
      obtain ⟨buf, pc, unsent, heq, htext, hunsent, hsending⟩ := clientSends_cases (s := s) hlen
      rw [heq] at hsending
      rw [hs', heq]
      refine .sending ms _ 0 unsent hsending hecho heempty ⟨?_, List.not_mem_nil⟩ htext
        Lines.unbroken_takeLine hlen hms ?_ hprinted ?_ hreceived
      · show [] ++ (s.clientFifo ++ unsent) = _
        rw [hcempty, List.nil_append, List.nil_append, hunsent]
      · rw [hlines, Lines.pieces_of_ne_nil (by decide) hstdin]
      · show (if unsent = [] then _ else _) = _
        rw [hsent]
  | sending ms line n unsent hclient hecho hempty hrec htext hunbroken hlen hms hlines hprinted
      hsent hreceived =>
    have hopen := echoOpen_of_reading hecho
    obtain ⟨fifo, unsent', pc, rfl, hflow, hnil, hclient'⟩ := hclient.step hopen hempty h
    refine .sending ms line n unsent' hclient' hecho hempty ?_ htext hunbroken hlen hms hlines
      hprinted ?_ hreceived
    · show Receiving s.echoBuf n (fifo ++ unsent') _
      rw [hflow]
      exact hrec
    · show (if unsent ≠ [] ∧ unsent' = [] then _ else _) = _
      rw [hsent, htext]
      -- the text counts as sent with its last byte, or at once if it is empty
      by_cases hunsent : unsent = []
      · rw [if_neg fun h => h.1 hunsent, if_pos hunsent, if_pos (hnil hunsent)]
      · rw [if_neg hunsent]
        by_cases hunsent' : unsent' = []
        · rw [if_pos ⟨hunsent, hunsent'⟩, if_pos hunsent']
        · rw [if_neg fun h => hunsent' h.2, if_neg hunsent']
  | ended ms hclient hecho hcempty heempty hms hlines hprinted hsent hreceived =>
    simp only [client, hclient] at h
    cases h

/-- The echo process is about to send a message from its buffer. -/
theorem echoSends_eq (hm : IsMessage m) (hbuf : s.echoBuf = buf.store 0 (m ++ [0])) :
    s.echoSends = { s with echo := .writing 0 m.length } ∧ s.echoBuf.load 0 m.length = m := by
  have hstrlen : strlen bufSize s.echoBuf = m.length := by
    have hlt : m.length < bufSize := Nat.lt_of_le_pred (by decide) hm.line.length_le
    rw [strlen, hbuf, Memory.cString_store_of_notMem hlt hm.zero]
  have hpos : 0 < m.length := List.length_pos_of_mem hm.line.mem
  refine ⟨?_, ?_⟩
  · rw [State.echoSends, hstrlen, if_neg hpos.ne']
  · rw [hbuf, Memory.load_store_left]

/-- The first stage: the echo process sends the welcome message. -/
theorem stage_start (stdin : List Byte) (clientBuf echoBuf : Memory Byte) :
    Stage (pieces newline (bufSize - 1) stdin) (start stdin clientBuf echoBuf) := by
  have hm := isMessage_welcome
  have hbuf : (opened stdin clientBuf echoBuf).echoBuf = echoBuf.store 0 (welcome ++ [0]) := by
    rw [opened]
  obtain ⟨heq, hload⟩ := echoSends_eq hm hbuf
  rw [start, heq]
  refine .receiving [] welcome 0 welcome (.inl rfl) (.inl ⟨0, _, rfl, ?_, hload⟩) rfl
    ⟨?_, List.not_mem_nil⟩ hm (fun x hx => absurd hx List.not_mem_nil) ?_ ?_ rfl rfl
  · exact List.length_pos_of_mem hm.line.mem
  · show [] ++ ([] ++ welcome) = welcome
    rw [List.nil_append, List.nil_append]
  · exact (List.nil_append _).symm
  · exact List.nil_append _

/-- **The stages**: whatever the user types, every reachable state is at one of them. -/
theorem stage {stdin : List Byte} (h : (program capacity stdin).Reachable s) :
    Stage (pieces newline (bufSize - 1) stdin) s := by
  refine h.invariant (I := Stage (pieces newline (bufSize - 1) stdin)) ?_ ?_
  · rintro s ⟨clientBuf, echoBuf, hstart⟩
    rw [hstart]
    exact stage_start stdin clientBuf echoBuf
  · intro s t s' _ hs hstep
    cases t with
    | client ret => exact hs.step_client hstep
    | echo ret => exact hs.step_echo hstep

end EchoFifo
