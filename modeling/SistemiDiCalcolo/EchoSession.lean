/-
A session of Lab08/01: the client and the handler of the server, over two streams of bytes.

The handler compares what its first `send` has taken with the size of its buffer, which is more
than the welcome message has, and so it ends with that call whatever comes of it.  The client finds
that out at the welcome message, if it has not come as a whole, or at the reply to its first line.

* `session` — the two processes, with the bytes on their way as what is left to be received;
* `Phase` — how far a client can get;
* `never_echoes` — the handler receives no command and the client shows no reply, in any session,
  and every session ends.
-/
import SistemiDiCalcolo.LineClient

open AccessLog (Byte)
open Lines (takeLine)
open EchoServer (SERVER_COMMAND newline bufSize welcome welcomed IsEnd Handler)

namespace EchoSession

/-! ### The session -/

/-- The handler and the client; the `input` of each is what the other has sent and it has not
received. -/
structure Session where
  server : Handler
  client : LineClient.State

/-- The next call of one of them. -/
inductive Event
  | server (ev : EchoServer.Event)
  | client (ev : LineClient.Event)

namespace Event

/-- The call was interrupted. -/
def interrupted : Event → Bool
  | server .interrupted | client .interrupted => true
  | _ => false

/-- The call has failed. -/
def error : Event → Bool
  | server .error | client .error => true
  | _ => false

end Event

namespace Session

/-- The server has closed its end. -/
def ServerEnded (σ : Session) : Prop := σ.server.pc = .left ∨ σ.server.pc = .failed

/-- The client has closed its end. -/
def ClientEnded (σ : Session) : Prop :=
  σ.client.pc = .left ∨ σ.client.pc = .failed ∨ σ.client.pc = .undefined

instance (σ : Session) : Decidable σ.ServerEnded :=
  inferInstanceAs (Decidable (_ ∨ _))

instance (σ : Session) : Decidable σ.ClientEnded :=
  inferInstanceAs (Decidable (_ ∨ _ ∨ _))

/-- What one of them sends is there for the other to receive; the end of a stream comes when the
other has closed. -/
def step (σ : Session) : Event → Option Session
  | .server ev =>
    if ev = .closed ∧ ¬ σ.ClientEnded then none
    else (EchoServer.step σ.server ev).map fun server =>
      { server := server
        client := { σ.client with
          input := σ.client.input ++ server.sent.drop σ.server.sent.length } }
  | .client ev =>
    if ev = .closed ∧ ¬ σ.ServerEnded then none
    else (LineClient.step σ.client ev).map fun client =>
      { server := { σ.server with
          input := σ.server.input ++ client.sent.drop σ.client.sent.length }
        client := client }

end Session

/-- The session of a user who types `stdin`. -/
def session (stdin : List Byte) : Machine Session Event where
  init σ := ∃ buf buf', σ = ⟨EchoServer.start buf (.welcoming 0) [], LineClient.start buf' [] stdin⟩
  step := Session.step

/-! ### How far a session gets -/

/-- What the client has before it: the rest of what has been sent of the welcome message; or its
first line, the answer to it and the end of the stream. -/
inductive Phase (stdin : List Byte) (sent : List Byte) (c : LineClient.State) : Prop
  | welcome (r : ℕ) : c.pc = .welcome r → r < welcome.length → r ≤ sent.length →
      c.input = sent.drop r → c.stdin = stdin → Phase stdin sent c
  | prompt : c.pc = .prompt → sent = welcome → c.input = [] → c.stdin = stdin →
      Phase stdin sent c
  | sending (msg_len : ℕ) (line : List Byte) : c.pc = .sending msg_len 0 → 0 < msg_len →
      sent = welcome → c.input = [] → line <+: stdin →
      c.buf.load 0 (line.length + 1) = line ++ [0] → Phase stdin sent c
  | reply : c.pc = .reply 0 → sent = welcome → c.input = [] → Phase stdin sent c
  | left : c.pc = .left → sent = welcome → SERVER_COMMAND <+: stdin → Phase stdin sent c
  | failed : c.pc = .failed → Phase stdin sent c

/-- The handler is before its first `send` or has failed, and the client is in a phase. -/
structure Inv (stdin : List Byte) (σ : Session) : Prop where
  server : σ.server.pc = .welcoming 0 ∧ σ.server.sent = [] ∧
      σ.server.buf.load 0 welcome.length = welcome ∨ σ.server.pc = .failed
  sent : σ.server.sent <+: welcome
  commands : σ.server.commands = []
  shown : σ.client.shown = []
  phase : Phase stdin σ.server.sent σ.client

variable {stdin sent : List Byte} {σ σ' : Session} {c c' : LineClient.State}

theorem welcome_ne_nil : welcome ≠ [] := by
  rw [← List.length_pos_iff, EchoServer.length_welcome]
  decide

theorem inv_session {σ : Session} (h : (session stdin).init σ) : Inv stdin σ := by
  obtain ⟨buf, buf', rfl⟩ := h
  refine ⟨.inl ⟨rfl, rfl, ?_⟩, List.nil_prefix, rfl, rfl, .welcome 0 rfl ?_ le_rfl rfl rfl⟩
  · show (welcomed buf).load 0 welcome.length = welcome
    exact Memory.load_store_left
  · exact List.length_pos_iff.mpr welcome_ne_nil

/-- The handler ends with its first `send`; before that it has sent nothing. -/
theorem Inv.server_step {ev : EchoServer.Event} {server : Handler} (h : Inv stdin σ)
    (hstep : EchoServer.step σ.server ev = some server) :
    server.commands = [] ∧ (ev = .interrupted ∧ server = σ.server ∨
      ev ≠ .interrupted ∧ server.pc = .failed ∧ σ.server.pc = .welcoming 0 ∧
        σ.server.sent = [] ∧ server.sent <+: welcome) := by
  rcases h.server with ⟨hpc, hsent, hbuf⟩ | hpc
  · cases ev <;> simp only [EchoServer.step, hpc] at hstep
    case interrupted =>
      have hlen : 0 < welcome.length - 0 := List.length_pos_iff.mpr welcome_ne_nil
      rw [Handler.welcomes, if_pos hlen] at hstep
      cases hstep
      refine ⟨h.commands, .inl ⟨rfl, ?_⟩⟩
      rw [← hpc]
    case error =>
      cases hstep
      exact ⟨h.commands, .inr ⟨by simp, rfl, hpc, hsent, h.sent⟩⟩
    case taken n =>
      split at hstep
      · next hn =>
        have hne : n ≠ bufSize := by
          have hlen := EchoServer.length_welcome
          rw [bufSize]
          omega
        rw [if_pos hne] at hstep
        cases hstep
        refine ⟨h.commands, .inr ⟨by simp, rfl, hpc, hsent, ?_⟩⟩
        show σ.server.sent ++ σ.server.buf.load 0 n <+: welcome
        rw [hsent, List.nil_append, ← Memory.take_load hn.2, Nat.sub_zero, hbuf]
        exact List.take_prefix _ _
      · cases hstep
    all_goals cases hstep
  · cases ev <;> simp only [EchoServer.step, hpc] at hstep <;> cases hstep

/-- What the server sends more is there for a client that is at the welcome message. -/
theorem Phase.sends {more : List Byte} (h : Phase stdin [] c) :
    Phase stdin more { c with input := c.input ++ more } := by
  cases h with
  | welcome r hpc hr hle hinput hstdin =>
    obtain rfl : r = 0 := Nat.le_zero.mp hle
    refine .welcome 0 hpc hr (Nat.zero_le _) ?_ hstdin
    show c.input ++ more = more
    rw [hinput]
    rfl
  | prompt _ hsent _ _ | sending _ _ _ _ hsent _ _ _ | reply _ hsent _ | left _ hsent _ =>
    exact absurd hsent.symm welcome_ne_nil
  | failed hpc => exact .failed hpc

/-- The byte at which the loop for the welcome message stops is its last. -/
theorem isEnd_welcome {r : ℕ} {b : Byte} (h : welcome[r]? = some b) :
    IsEnd b ↔ r + 1 = welcome.length := by
  obtain ⟨body, hbody, hends⟩ := EchoServer.exists_body_welcome
  have hlen : welcome.length = body.length + 1 := by rw [hbody, List.length_append]; rfl
  obtain ⟨hr, -⟩ := List.getElem?_eq_some_iff.mp h
  rw [hbody] at h
  obtain hlt | heq := Nat.lt_or_eq_of_le (Nat.le_of_lt_succ (hlen ▸ hr))
  · rw [List.getElem?_append_left hlt] at h
    have hmem : b ∈ body := List.mem_of_getElem? h
    exact ⟨fun hend => absurd hend (hends b hmem), fun hr' => by omega⟩
  · subst heq
    rw [List.getElem?_append_right le_rfl, Nat.sub_self] at h
    cases h
    exact ⟨fun _ => hlen.symm, fun _ => .inl rfl⟩

/-- A command that is found in the buffer of a line begins the line. -/
theorem prefix_of_load {m : Memory Byte} {line command : List Byte}
    (hline : m.load 0 (line.length + 1) = line ++ [0]) (hload : m.load 0 command.length = command)
    (hzero : 0 ∉ command) : command <+: line := by
  obtain hle | hlt := le_or_gt command.length line.length
  · have htake : command = line.take command.length := by
      rw [← hload, Memory.length_load, ← Memory.take_load (Nat.le_succ_of_le hle), hline,
        List.take_append_of_le_length hle]
    rw [htake]
    exact List.take_prefix _ _
  · refine absurd ?_ hzero
    have htake : line ++ [0] <+: command := by
      rw [← hline, ← Memory.take_load hlt, hload]
      exact List.take_prefix _ _
    exact htake.subset (List.mem_append_right _ (List.mem_singleton_self 0))

/-- The steps that the client has before it, interrupted calls apart. -/
def clientLeft (c : LineClient.State) : ℕ :=
  match c.pc with
  | .welcome _ => 4 + c.input.length
  | .prompt => 3
  | .sending _ _ => 2
  | .reply _ => 1
  | .left | .failed | .undefined => 0

/-- What a step of the client does to its phase. -/
structure Advances (stdin sent : List Byte) (ev : LineClient.Event) (c c' : LineClient.State) :
    Prop where
  shown : c'.shown = c.shown
  phase : Phase stdin sent c'
  left : clientLeft c' ≤ clientLeft c
  left_lt : ev ≠ .interrupted → clientLeft c' < clientLeft c

/-- After the message the client has left, or waits for the reply. -/
theorem Phase.hasSent {line : List Byte} (n : ℕ) (hsent : sent = EchoServer.welcome)
    (hinput : c.input = []) (hline : line <+: stdin)
    (hload : c.buf.load 0 (line.length + 1) = line ++ [0]) :
    Phase stdin sent (c.hasSent n) ∧ (c.hasSent n).shown = c.shown ∧
      clientLeft (c.hasSent n) ≤ 1 := by
  rw [LineClient.State.hasSent]
  split_ifs with hquit
  · refine ⟨.left rfl hsent ?_, rfl, Nat.zero_le 1⟩
    exact (prefix_of_load hload hquit.2 (by decide)).trans hline
  · exact ⟨.reply rfl hsent hinput, rfl, le_rfl⟩

theorem Advances.of_lt {ev : LineClient.Event} (hshown : c'.shown = c.shown)
    (hphase : Phase stdin sent c') (hlt : clientLeft c' < clientLeft c) :
    Advances stdin sent ev c c' :=
  ⟨hshown, hphase, hlt.le, fun _ => hlt⟩

theorem advances_failed {ev : LineClient.Event} (hleft : 0 < clientLeft c) :
    Advances stdin sent ev c { c with pc := .failed } :=
  .of_lt rfl (.failed rfl) hleft

/-- The client at the welcome message receives the next byte of it. -/
theorem advances_welcome {ev : LineClient.Event} {r : ℕ} (hpc : c.pc = .welcome r)
    (hr : r < welcome.length) (hle : r ≤ sent.length) (hinput : c.input = sent.drop r)
    (hstdin : c.stdin = stdin) (hsent : sent <+: welcome) (h : LineClient.step c ev = some c') :
    Advances stdin sent ev c c' := by
  have hleft : clientLeft c = 4 + c.input.length := by rw [clientLeft, hpc]
  cases ev <;> simp only [LineClient.step, hpc] at h
  case interrupted =>
    cases h
    exact ⟨rfl, .welcome r hpc hr hle hinput hstdin, le_rfl, fun hne => absurd rfl hne⟩
  case error =>
    cases h
    exact advances_failed (by omega)
  case closed =>
    split at h <;> cases h
    exact advances_failed (by omega)
  case byte =>
    cases hbytes : c.input with
    | nil =>
      simp only [LineClient.State.recv, hbytes] at h
      cases h
    | cons b rest =>
      have hlen := EchoServer.length_welcome
      rw [LineClient.State.recv, hbytes] at h
      simp only at h
      rw [if_pos (by rw [bufSize]; omega)] at h
      obtain rfl := Option.some.inj h
      rw [hbytes, List.length_cons] at hleft
      rw [hinput] at hbytes
      have hlt : r < sent.length := by
        by_contra hge
        rw [List.drop_eq_nil_of_le (Nat.le_of_not_lt hge)] at hbytes
        cases hbytes
      rw [List.drop_eq_getElem_cons hlt] at hbytes
      obtain ⟨hb, hrest⟩ := List.cons.inj hbytes
      -- what comes in is the welcome message, from where the client is
      have hget : welcome[r]? = some b := by
        obtain ⟨more, hmore⟩ := hsent
        rw [← hmore, List.getElem?_append_left hlt, List.getElem?_eq_getElem hlt, hb]
      have hstored : c.buf.store r [b] r = b := Memory.store_self
      rw [LineClient.State.stored]
      simp only [hstored]
      split_ifs with hend
      · have hlast := (isEnd_welcome hget).mp hend
        have hwhole : sent = welcome := hsent.eq_of_length (by have := hsent.length_le; omega)
        refine .of_lt rfl (.prompt rfl hwhole ?_ hstdin) ?_
        · rw [← hrest]
          exact List.drop_eq_nil_of_le (by rw [hwhole]; omega)
        · rw [hleft]
          show 3 < _
          omega
      · have hnext : r + 1 ≠ welcome.length := fun heq => hend ((isEnd_welcome hget).mpr heq)
        refine .of_lt rfl (.welcome (r + 1) rfl (by omega) hlt hrest.symm hstdin) ?_
        rw [hleft]
        show 4 + rest.length < _
        omega
  all_goals cases h

/-- The client at its first line. -/
theorem advances_prompt {ev : LineClient.Event} (hpc : c.pc = .prompt) (hsent : sent = welcome)
    (hinput : c.input = []) (hstdin : c.stdin = stdin) (h : LineClient.step c ev = some c') :
    Advances stdin sent ev c c' := by
  have hleft : clientLeft c = 3 := by rw [clientLeft, hpc]
  cases ev <;> simp only [LineClient.step, hpc] at h
  case typed =>
    split_ifs at h with hnil
    · cases h
      exact advances_failed (by omega)
    · obtain rfl := Option.some.inj h
      set line := takeLine newline (bufSize - 1) c.stdin with hline
      have hprefix : line <+: stdin := hstdin ▸ Lines.takeLine_prefix
      have hload : (c.buf.store 0 (line ++ [0])).load 0 (line.length + 1) = line ++ [0] := by
        have hlen : line.length + 1 = (line ++ [0]).length := by
          rw [List.length_append, List.length_singleton]
        rw [hlen]
        exact Memory.load_store
      rw [LineClient.State.types, LineClient.State.sends]
      split_ifs with hpos
      · rw [Nat.sub_zero] at hpos
        refine .of_lt rfl (.sending _ line rfl hpos hsent hinput hprefix hload) ?_
        rw [hleft]
        exact Nat.lt_succ_self 2
      · obtain ⟨hphase, hshown, hle⟩ := Phase.hasSent
          (c := { c with buf := c.buf.store 0 (line ++ [0]), stdin := c.stdin.drop line.length })
          0 hsent hinput hprefix hload
        exact .of_lt hshown hphase (by omega)
  all_goals cases h

/-- The client sends its first line as a whole, or fails. -/
theorem advances_sending {ev : LineClient.Event} {msg_len : ℕ} {line : List Byte}
    (hpc : c.pc = .sending msg_len 0) (hpos : 0 < msg_len) (hsent : sent = welcome)
    (hinput : c.input = []) (hline : line <+: stdin)
    (hload : c.buf.load 0 (line.length + 1) = line ++ [0]) (h : LineClient.step c ev = some c') :
    Advances stdin sent ev c c' := by
  have hleft : clientLeft c = 2 := by rw [clientLeft, hpc]
  cases ev <;> simp only [LineClient.step, hpc] at h
  case interrupted =>
    obtain rfl := Option.some.inj h
    rw [LineClient.State.sends, if_pos (by omega)]
    refine ⟨rfl, .sending msg_len line rfl hpos hsent hinput hline hload, hleft.ge, ?_⟩
    exact fun hne => absurd rfl hne
  case error =>
    cases h
    exact advances_failed (by omega)
  case taken n =>
    split_ifs at h with hn hne
    · cases h
      exact .of_lt rfl (.failed rfl) (by rw [hleft]; exact Nat.zero_lt_two)
    · obtain rfl := Option.some.inj h
      obtain rfl := not_not.mp hne
      have hover : ¬ 0 < n - (0 + n) := by omega
      rw [LineClient.State.sends, if_neg hover]
      obtain ⟨hphase, hshown, hle⟩ := Phase.hasSent
        (c := { c with pc := .sending n 0, sent := c.sent ++ c.buf.load 0 n }) (0 + n) hsent hinput
        hline hload
      exact .of_lt hshown hphase (by omega)
  all_goals cases h

/-- There is no reply. -/
theorem advances_reply {ev : LineClient.Event} (hpc : c.pc = .reply 0) (hsent : sent = welcome)
    (hinput : c.input = []) (h : LineClient.step c ev = some c') :
    Advances stdin sent ev c c' := by
  have hleft : clientLeft c = 1 := by rw [clientLeft, hpc]
  cases ev <;> simp only [LineClient.step, hpc] at h
  case interrupted =>
    cases h
    exact ⟨rfl, .reply hpc hsent hinput, le_rfl, fun hne => absurd rfl hne⟩
  case error =>
    cases h
    exact advances_failed (by omega)
  case closed =>
    rw [if_pos hinput] at h
    cases h
    exact advances_failed (by omega)
  case byte =>
    rw [LineClient.State.recv, hinput] at h
    cases h
  all_goals cases h

theorem Phase.step {ev : LineClient.Event} (hphase : Phase stdin sent c)
    (hsent : sent <+: EchoServer.welcome) (h : LineClient.step c ev = some c') :
    Advances stdin sent ev c c' := by
  cases hphase with
  | welcome r hpc hr hle hinput hstdin => exact advances_welcome hpc hr hle hinput hstdin hsent h
  | prompt hpc hwhole hinput hstdin => exact advances_prompt hpc hwhole hinput hstdin h
  | sending msg_len line hpc hpos hwhole hinput hline hload =>
    exact advances_sending hpc hpos hwhole hinput hline hload h
  | reply hpc hwhole hinput => exact advances_reply hpc hwhole hinput h
  | left hpc _ _ | failed hpc => cases ev <;> simp only [LineClient.step, hpc] at h <;> cases h

/-- The steps that the session has before it, interrupted calls apart. -/
def left (σ : Session) : ℕ :=
  (match σ.server.pc with
    | .welcoming _ => 1 + welcome.length
    | _ => 0) + clientLeft σ.client

/-- What comes in makes the client's way longer by as much. -/
theorem clientLeft_sends (c : LineClient.State) (more : List Byte) :
    clientLeft { c with input := c.input ++ more } ≤ clientLeft c + more.length := by
  unfold clientLeft
  cases c.pc <;> simp
  omega

/-- A step keeps the invariant and brings the end nearer, unless it is an interrupted call. -/
theorem Inv.step {ev : Event} (h : Inv stdin σ) (hstep : σ.step ev = some σ') :
    Inv stdin σ' ∧ left σ' ≤ left σ ∧ (ev.interrupted = false → left σ' < left σ) := by
  cases ev with
  | server ev =>
    rw [Session.step] at hstep
    split_ifs at hstep
    obtain ⟨server, hserver, rfl⟩ := Option.map_eq_some_iff.mp hstep
    obtain ⟨hcommands, ⟨rfl, rfl⟩ | ⟨-, hpc, hpc', hnil, hprefix⟩⟩ := h.server_step hserver
    · rw [List.drop_length, List.append_nil]
      exact ⟨h, le_rfl, fun hne => absurd hne (by simp [Event.interrupted])⟩
    · have hphase := h.phase
      rw [hnil] at hphase
      have hle := clientLeft_sends σ.client server.sent
      have hlen := hprefix.length_le
      have hlt : left ⟨server, { σ.client with input := σ.client.input ++ server.sent }⟩
          < left σ := by
        simp only [left, hpc, hpc']
        omega
      simp only [hnil, List.length_nil, List.drop_zero]
      exact ⟨⟨.inr hpc, hprefix, hcommands, h.shown, hphase.sends⟩, hlt.le, fun _ => hlt⟩
  | client ev =>
    rw [Session.step] at hstep
    split_ifs at hstep
    obtain ⟨client, hclient, rfl⟩ := Option.map_eq_some_iff.mp hstep
    obtain ⟨hshown, hphase, hle, hlt⟩ := h.phase.step h.sent hclient
    refine ⟨⟨h.server, h.sent, h.commands, hshown.trans h.shown, hphase⟩,
      Nat.add_le_add_left hle _, fun hne => Nat.add_lt_add_left (hlt ?_) _⟩
    rintro rfl
    simp [Event.interrupted] at hne

theorem inv (h : (session stdin).Reachable σ) : Inv stdin σ :=
  h.invariant (fun _ hinit => inv_session hinit) fun _ _ _ _ hs hstep => (hs.step hstep).1

/-- As long as somebody has not ended, somebody can go on without a failure. -/
theorem Inv.exists_step (h : Inv stdin σ) (hnot : ¬ (σ.ServerEnded ∧ σ.ClientEnded)) :
    ∃ ev, ev.interrupted = false ∧ ev.error = false ∧ σ.step ev ≠ none := by
  rcases h.server with ⟨hpc, -, -⟩ | hpc
  · refine ⟨.server (.taken 1), rfl, rfl, ?_⟩
    have hlen := EchoServer.length_welcome
    simp [Session.step, EchoServer.step, hpc, bufSize, welcome_ne_nil]
  · have hended : σ.ServerEnded := .inr hpc
    cases h.phase with
    | welcome r hpc _ _ _ _ =>
      cases hinput : σ.client.input with
      | nil =>
        refine ⟨.client .closed, rfl, rfl, ?_⟩
        simp [Session.step, LineClient.step, hpc, hinput, hended]
      | cons b rest =>
        refine ⟨.client .byte, rfl, rfl, ?_⟩
        simp only [Session.step, LineClient.step, hpc, LineClient.State.recv, hinput]
        split_ifs <;> simp_all
    | prompt hpc _ _ _ =>
      refine ⟨.client .typed, rfl, rfl, ?_⟩
      simp only [Session.step, LineClient.step, hpc]
      split_ifs <;> simp_all
    | sending msg_len line hpc hpos _ _ _ _ =>
      refine ⟨.client (.taken 1), rfl, rfl, ?_⟩
      have hone : 0 < 1 ∧ 1 ≤ msg_len - 0 := ⟨Nat.one_pos, hpos⟩
      simp only [Session.step, LineClient.step, hpc, if_pos hone]
      split_ifs <;> simp_all
    | reply hpc _ hinput =>
      refine ⟨.client .closed, rfl, rfl, ?_⟩
      simp [Session.step, LineClient.step, hpc, hinput, hended]
    | left hpc _ _ => exact absurd ⟨hended, .inl hpc⟩ hnot
    | failed hpc => exact absurd ⟨hended, .inr (.inl hpc)⟩ hnot

theorem Phase.pc_ne (h : Phase stdin sent c) : c.pc ≠ .undefined := by
  cases h with
  | welcome _ hpc | prompt hpc | sending _ _ hpc | reply hpc | left hpc | failed hpc =>
    rw [hpc]
    simp

theorem Phase.of_left (h : Phase stdin sent c) (hleft : c.pc = .left) :
    sent = EchoServer.welcome ∧ SERVER_COMMAND <+: stdin := by
  cases h with
  | left _ hwhole hquit => exact ⟨hwhole, hquit⟩
  | welcome _ hpc | prompt hpc | sending _ _ hpc | reply hpc | failed hpc =>
    rw [hpc] at hleft
    cases hleft

/-- No session is longer than the welcome message and five calls. -/
theorem left_le (h : (session stdin).Reachable σ) : left σ ≤ welcome.length + 5 := by
  refine h.invariant (I := fun σ => left σ ≤ welcome.length + 5) ?_ fun σ ev σ' hr hle hstep =>
    ((inv hr).step hstep).2.1.trans hle
  rintro σ ⟨buf, buf', rfl⟩
  show 1 + welcome.length + 4 ≤ _
  omega

/-- **No session of Lab08/01 echoes anything.**  Whatever the user types and however the calls go,
the handler receives no command and the client shows no reply; the client is well out of its main
loop only if the welcome message has come as a whole and the user began with the quit command.  A
session has as many calls as the welcome message has bytes and five more at most, interrupted ones
apart, and goes on without a failure until both have ended. -/
theorem never_echoes (stdin : List Byte) (σ : Session) (h : (session stdin).Reachable σ) :
    σ.server.commands = [] ∧ σ.client.shown = [] ∧ σ.client.pc ≠ .undefined ∧
    (σ.client.pc = .left → σ.server.sent = welcome ∧ SERVER_COMMAND <+: stdin) ∧
    (¬ (σ.ServerEnded ∧ σ.ClientEnded) →
      ∃ ev, ev.interrupted = false ∧ ev.error = false ∧ σ.step ev ≠ none) ∧
    ∀ evs σ', (session stdin).run σ evs = some σ' →
      evs.countP (fun ev => !ev.interrupted) ≤ welcome.length + 5 := by
  have hinv := inv h
  refine ⟨hinv.commands, hinv.shown, hinv.phase.pc_ne, hinv.phase.of_left, hinv.exists_step,
    fun evs σ' hrun => ?_⟩
  have hcount := h.run_countP (P := fun ev => !ev.interrupted) (μ := left)
    (fun σ ev σ' hr hstep hne => ((inv hr).step hstep).2.2 (by simpa using hne))
    (fun σ ev σ' hr hstep _ => ((inv hr).step hstep).2.1) hrun
  exact (Nat.le_of_add_right_le hcount).trans (left_le h)

/-- The two processes, connected. -/
def connected (stdin : List Byte) : Session :=
  ⟨EchoServer.start (fun _ => 0) (.welcoming 0) [], LineClient.start (fun _ => 0) [] stdin⟩

/-- The welcome message comes as a whole, with an interrupted call on the way, and the first line
goes out; where the reply should be is the end of the stream. -/
def wholeWelcome : List Event :=
  .server (.taken welcome.length) :: .client .interrupted ::
    List.replicate welcome.length (.client .byte) ++
      [.client .typed, .client .interrupted, .client (.taken 3), .client .closed]

/-- A user who types two lines: the first is on its way when the session is over. -/
theorem never_echoes_two_lines : ∃ σ,
    (session (charBytes "hi\nQUIT\n")).run (connected (charBytes "hi\nQUIT\n")) wholeWelcome =
      some σ ∧
    σ.server.sent = welcome ∧ σ.client.sent = charBytes "hi\n" ∧ σ.ServerEnded ∧ σ.ClientEnded ∧
    σ.server.commands = [] ∧ σ.client.shown = [] := by
  have hrun : ((session (charBytes "hi\nQUIT\n")).run (connected (charBytes "hi\nQUIT\n"))
      wholeWelcome).any (fun σ => decide (σ.server.sent = welcome ∧
        σ.client.sent = charBytes "hi\n" ∧ σ.ServerEnded ∧ σ.ClientEnded)) = true := by
    decide +kernel
  obtain ⟨σ, hσ, hended⟩ := (Option.any_eq_true _ _).mp hrun
  have hreachable : (session (charBytes "hi\nQUIT\n")).Reachable σ :=
    Machine.reachable_iff_run.mpr ⟨_, wholeWelcome, ⟨_, _, rfl⟩, hσ⟩
  obtain ⟨hcommands, hshown, -⟩ := never_echoes _ σ hreachable
  obtain ⟨hwelcome, hline, hserver, hclient⟩ := of_decide_eq_true hended
  exact ⟨σ, hσ, hwelcome, hline, hserver, hclient, hcommands, hshown⟩

end EchoSession
