/-
The client of Lab08/02 (`client.c`).

For every line that its user types the client strips the last character, sends the rest and
waits for a reply, unless the message was the quit command.  The message it compares has lost
its newline; the command it compares it with has not.

* `client` — the client, one step for each call;
* `never_left` — it never leaves its main loop;
* `leaves_iff` — so it does what the user wants only as long as the user does not want to quit.
-/
import SistemiDiCalcolo.Machine
import SistemiDiCalcolo.Descriptor
import SistemiDiCalcolo.Lines

open AccessLog (Byte)
open Memory (cString strlen)
open Lines (takeLine pieces)

namespace EchoClient

def SERVER_COMMAND : List Byte := charBytes "QUIT\n"

def newline : Byte := 10

/-- `sizeof(buf)`. -/
def bufSize : ℕ := 1024

/-- The calls of `main`: `recv` for the welcome message, `fgets`, `send`, `recv` for the reply;
or it has left the main loop, or ended with an error, or stored out of the bounds of `buf`. -/
inductive Pc
  | welcome
  | prompt
  | sending (msg_len : ℕ)
  | receiving
  | left
  | failed
  | undefined
  deriving DecidableEq, Repr

/-- What a call gives: -1 with `EINTR` or with another error, bytes received, or how many bytes
`send` has taken.  `typed` is the return of `fgets`. -/
inductive Event
  | interrupted
  | error
  | received (data : List Byte)
  | typed
  | taken (n : ℕ)

/-- The buffer and what the user has yet to type; beside them what `fgets` has returned last,
and all that it had returned whenever a `send` has succeeded. -/
structure State where
  pc : Pc
  buf : Memory Byte
  stdin : List Byte
  line : List Byte
  sent : List (List Byte)

namespace State

/-- `fgets` has returned a line, and `main` strips the last character of it. -/
def sends (s : State) (line : List Byte) : State :=
  let s := { s with
    buf := s.buf.store 0 (line ++ [0])
    stdin := s.stdin.drop line.length
    line := line }
  let msg_len := strlen bufSize s.buf
  -- without a character there is nothing to strip, and `buf[-1]` is set
  if msg_len = 0 then { s with pc := .undefined }
  else { s with buf := s.buf.store (msg_len - 1) [0], pc := .sending (msg_len - 1) }

/-- `send` has returned: was it the quit command? -/
def hasSent (s : State) (msg_len : ℕ) : State :=
  let s := { s with sent := s.sent ++ [s.line] }
  if msg_len = SERVER_COMMAND.length ∧
      s.buf.load 0 SERVER_COMMAND.length = SERVER_COMMAND then
    { s with pc := .left }
  else { s with pc := .receiving }

end State

/-- The next call, with the local code up to the one after it. -/
def step (s : State) (ev : Event) : Option State :=
  match s.pc, ev with
  | .welcome, .interrupted | .sending _, .interrupted | .receiving, .interrupted => some s
  | .welcome, .error | .sending _, .error | .receiving, .error => some { s with pc := .failed }
  | .welcome, .received data =>
    if data.length ≤ bufSize - 1 then
      some { s with buf := s.buf.store 0 (data ++ [0]), pc := .prompt }
    else none
  | .prompt, .typed =>
    -- at the end of the input `fgets` returns `NULL`
    if s.stdin = [] then some { s with pc := .failed }
    else some (s.sends (takeLine newline (bufSize - 1) s.stdin))
  | .sending msg_len, .taken n =>
    if n ≤ msg_len ∧ (n = 0 → msg_len = 0) then some (s.hasSent msg_len) else none
  | .receiving, .received data =>
    if data.length ≤ bufSize then some { s with buf := s.buf.store 0 data, pc := .prompt }
    else none
  | _, _ => none

/-- The client is connected, and its user will type `stdin`. -/
def start (buf : Memory Byte) (stdin : List Byte) : State where
  pc := .welcome
  buf := buf
  stdin := stdin
  line := []
  sent := []

/-- The client, on what its user types. -/
def client (stdin : List Byte) : Machine State Event where
  init s := ∃ buf, s = start buf stdin
  step := step

/-- The client leaves its main loop exactly when it has sent a line that is the quit command. -/
def Leaves (lines : List (List Byte)) (s : State) : Prop :=
  s.pc ≠ .undefined ∧
    (s.pc = .left ↔ ∃ k, lines[k]? = some SERVER_COMMAND ∧
      (lines.take (k + 1)).flatten <+: s.sent.flatten)

/-! ### The steps -/

section Steps

variable {s s' : State}

/-- What a step can do. -/
inductive ClientStep (s : State) : State → Prop
  | interrupted : ClientStep s s
  | failed : ClientStep s { s with pc := .failed }
  | received (buf : Memory Byte) : ClientStep s { s with buf := buf, pc := .prompt }
  | typed : s.pc = .prompt → s.stdin ≠ [] →
      ClientStep s (s.sends (takeLine newline (bufSize - 1) s.stdin))
  | taken (msg_len : ℕ) : s.pc = .sending msg_len → ClientStep s (s.hasSent msg_len)

theorem client_step {ev : Event} (h : step s ev = some s') : ClientStep s s' := by
  cases hpc : s.pc with
  | welcome | receiving =>
    cases ev with
    | interrupted =>
      simp only [step, hpc] at h
      cases h
      exact .interrupted
    | error =>
      simp only [step, hpc] at h
      cases h
      exact .failed
    | received data =>
      simp only [step, hpc] at h
      split_ifs at h
      cases h
      exact .received _
    | typed | taken n =>
      simp only [step, hpc] at h
      cases h
  | prompt =>
    cases ev with
    | typed =>
      simp only [step, hpc] at h
      split_ifs at h with hstdin
      · cases h
        exact .failed
      · obtain rfl := Option.some.inj h
        exact .typed hpc hstdin
    | interrupted | error | received data | taken n =>
      simp only [step, hpc] at h
      cases h
  | sending msg_len =>
    cases ev with
    | interrupted =>
      simp only [step, hpc] at h
      cases h
      exact .interrupted
    | error =>
      simp only [step, hpc] at h
      cases h
      exact .failed
    | taken n =>
      simp only [step, hpc] at h
      split_ifs at h
      cases h
      exact .taken msg_len hpc
    | received data | typed =>
      simp only [step, hpc] at h
      cases h
  | left | failed | undefined =>
    simp only [step, hpc] at h
    cases h

/-- What `fgets` and the stripping do: the message has one character less than the text of the
line, if that has one. -/
theorem sends_cases (s : State) (line : List Byte) :
    strlen bufSize (s.buf.store 0 (line ++ [0])) = 0 ∧ (s.sends line).pc = .undefined ∨
      ∃ k, k + 1 = strlen bufSize (s.buf.store 0 (line ++ [0])) ∧
        s.sends line = { s with
          buf := (s.buf.store 0 (line ++ [0])).store k [0]
          stdin := s.stdin.drop line.length
          line := line
          pc := .sending k } := by
  cases hlen : strlen bufSize (s.buf.store 0 (line ++ [0])) with
  | zero =>
    refine .inl ⟨rfl, ?_⟩
    simp only [State.sends, hlen, if_true]
  | succ k =>
    refine .inr ⟨k, rfl, ?_⟩
    simp only [State.sends, hlen, if_neg (Nat.succ_ne_zero k), Nat.add_sub_cancel]

end Steps

/-! ### The message has no newline -/

/-- What is left of a line without its last character has no newline. -/
theorem newline_notMem_of_strip {buf : Memory Byte} {line : List Byte}
    (hline : Lines.Unbroken newline line) (hlen : line.length < bufSize) {k : ℕ}
    (hk : k + 1 = strlen bufSize (buf.store 0 (line ++ [0]))) :
    newline ∉ ((buf.store 0 (line ++ [0])).store k [0]).load 0 k := by
  have htext : cString bufSize (buf.store 0 (line ++ [0])) <+: line := by
    rw [Memory.cString_store hlen]
    exact List.takeWhile_prefix _
  have hproper : (buf.store 0 (line ++ [0])).load 0 k <+: line := by
    refine List.IsPrefix.trans ?_ htext
    rw [← Memory.load_strlen, ← hk, Memory.load_add]
    exact List.prefix_append _ _
  rw [Memory.load_store_end]
  intro hmem
  have hle := htext.length_le
  rw [← strlen, ← hk, ← hline.eq_of_prefix hproper hmem, Memory.length_load] at hle
  exact Nat.lt_irrefl k hle

theorem length_takeLine_lt (xs : List Byte) :
    (takeLine newline (bufSize - 1) xs).length < bufSize :=
  Nat.lt_of_le_pred (by decide) Lines.length_takeLine_le

section Inv

variable {stdin : List Byte} {s s' : State}

/-- The message to be sent has no newline, and the client has not left its main loop. -/
structure Inv (s : State) : Prop where
  left : s.pc ≠ .left
  message : ∀ msg_len, s.pc = .sending msg_len → newline ∉ s.buf.load 0 msg_len

/-- A message without a newline is not the command. -/
theorem hasSent_eq {msg_len : ℕ} (h : newline ∉ s.buf.load 0 msg_len) :
    s.hasSent msg_len = { s with sent := s.sent ++ [s.line], pc := .receiving } := by
  rw [State.hasSent]
  refine if_neg ?_
  rintro ⟨rfl, hload⟩
  refine h ?_
  show newline ∈ s.buf.load 0 SERVER_COMMAND.length
  rw [show s.buf.load 0 SERVER_COMMAND.length = SERVER_COMMAND from hload]
  decide

theorem Inv.step (hs : Inv s) (h : ClientStep s s') : Inv s' := by
  cases h with
  | interrupted => exact hs
  | failed => exact ⟨nofun, nofun⟩
  | received buf => exact ⟨nofun, nofun⟩
  | typed hpc hstdin =>
    rcases sends_cases s (takeLine newline (bufSize - 1) s.stdin) with ⟨-, hundef⟩ | ⟨k, hk, heq⟩
    · exact ⟨by rw [hundef]; nofun, by rw [hundef]; nofun⟩
    · rw [heq]
      refine ⟨nofun, fun msg_len hlen => ?_⟩
      cases hlen
      exact newline_notMem_of_strip Lines.unbroken_takeLine (length_takeLine_lt _) hk
  | taken msg_len hpc =>
    rw [hasSent_eq (hs.message msg_len hpc)]
    exact ⟨nofun, nofun⟩

theorem inv_of_reachable (h : (client stdin).Reachable s) : Inv s := by
  refine h.invariant ?_ fun s ev s' _ hs hstep => hs.step (client_step hstep)
  rintro s ⟨buf, rfl⟩
  exact ⟨nofun, nofun⟩

/-- **The client never leaves its main loop**, whatever is typed and whatever the replies. -/
theorem never_left (h : (client stdin).Reachable s) : s.pc ≠ .left := (inv_of_reachable h).left

/-! ### What has been typed -/

/-- The first character of a line is a zero, if there is nothing to strip. -/
theorem strlen_eq_zero {buf : Memory Byte} {line : List Byte} (hlen : line.length < bufSize) :
    strlen bufSize (buf.store 0 (line ++ [0])) = 0 ↔ line = [] ∨ line.head? = some 0 := by
  rw [strlen, Memory.cString_store hlen, List.length_eq_zero_iff]
  cases line with
  | nil => simp
  | cons c line =>
    rw [List.takeWhile_cons, List.head?_cons]
    by_cases hc : c = 0
    · simp [hc]
    · simp

/-- What is left to be read is cut as it was at the beginning. -/
theorem pieces_suffix (h : (client stdin).Reachable s) :
    pieces newline (bufSize - 1) s.stdin <:+ pieces newline (bufSize - 1) stdin := by
  refine h.invariant (I := fun s => pieces newline (bufSize - 1) s.stdin <:+ _) ?_
    fun s ev s' hr hs hstep => ?_
  · rintro s ⟨buf, rfl⟩
    exact List.suffix_rfl
  · cases client_step hstep with
    | interrupted => exact hs
    | failed => exact hs
    | received buf => exact hs
    | typed hpc hstdin =>
      have hdrop : (s.sends (takeLine newline (bufSize - 1) s.stdin)).stdin
          = s.stdin.drop (takeLine newline (bufSize - 1) s.stdin).length := by
        rw [State.sends]
        simp only
        split_ifs <;> rfl
      rw [hdrop]
      rw [Lines.pieces_of_ne_nil (by decide) hstdin] at hs
      exact (List.suffix_cons _ _).trans hs
    | taken msg_len hpc =>
      rw [hasSent_eq ((inv_of_reachable hr).message msg_len hpc)]
      exact hs

/-- No piece that begins with a zero: the client stores in bounds. -/
theorem not_undefined (hpieces : ∀ piece ∈ pieces newline (bufSize - 1) stdin, piece.head? ≠ some 0)
    (h : (client stdin).Reachable s) : s.pc ≠ .undefined := by
  refine h.invariant (I := fun s => s.pc ≠ .undefined) ?_ fun s ev s' hr hs hstep => ?_
  · rintro s ⟨buf, rfl⟩
    exact nofun
  · cases client_step hstep with
    | interrupted => exact hs
    | failed => exact nofun
    | received buf => exact nofun
    | typed hpc hstdin =>
      rcases sends_cases s (takeLine newline (bufSize - 1) s.stdin) with ⟨hzero, -⟩ | ⟨k, -, heq⟩
      · have hmem : takeLine newline (bufSize - 1) s.stdin
            ∈ pieces newline (bufSize - 1) s.stdin := by
          rw [Lines.pieces_of_ne_nil (by decide) hstdin]
          exact List.mem_cons_self
        rcases (strlen_eq_zero (length_takeLine_lt _)).mp hzero with hnil | hhead
        · exact absurd hnil (Lines.takeLine_ne_nil (by decide) hstdin)
        · exact absurd hhead (hpieces _ ((pieces_suffix hr).subset hmem))
      · rw [heq]
        exact nofun
    | taken msg_len hpc =>
      rw [hasSent_eq ((inv_of_reachable hr).message msg_len hpc)]
      exact nofun

theorem reachable_step {ev : Event} (hr : (client stdin).Reachable s)
    (h : step s ev = some s') : (client stdin).Reachable s' := hr.step ev h

theorem step_typed (hpc : s.pc = .prompt) (hstdin : s.stdin ≠ []) {line : List Byte}
    (hline : takeLine newline (bufSize - 1) s.stdin = line) :
    step s .typed = some (s.sends line) := by
  simp only [step, hpc, hline]
  rw [if_neg hstdin]

/-- A line is typed and sent. -/
theorem exists_line_sent (hdefined : ∀ s, (client stdin).Reachable s → s.pc ≠ .undefined)
    (hr : (client stdin).Reachable s) (hpc : s.pc = .prompt) (hstdin : s.stdin ≠ [])
    {line : List Byte} (hline : takeLine newline (bufSize - 1) s.stdin = line) :
    line.head? ≠ some 0 ∧ ∃ s', (client stdin).Reachable s' ∧ s'.pc = .receiving ∧
      s'.stdin = s.stdin.drop line.length ∧ s'.sent = s.sent ++ [line] := by
  have hsends := reachable_step hr (step_typed hpc hstdin hline)
  rcases sends_cases s line with ⟨-, hundef⟩ | ⟨k, hk, heq⟩
  · exact absurd hundef (hdefined _ hsends)
  · have hhead : line.head? ≠ some 0 := by
      intro hhead
      have hzero : strlen bufSize (s.buf.store 0 (line ++ [0])) = 0 :=
        (strlen_eq_zero (hline ▸ length_takeLine_lt _)).mpr (.inr hhead)
      exact absurd (hk.trans hzero) (Nat.succ_ne_zero k)
    have hsending : (s.sends line).pc = .sending k := by rw [heq]
    have htaken : step (s.sends line) (.taken k) = some ((s.sends line).hasSent k) := by
      simp only [step, hsending]
      exact if_pos ⟨le_rfl, id⟩
    have hsent := reachable_step hsends htaken
    rw [hasSent_eq ((inv_of_reachable hsends).message k hsending), heq] at hsent
    exact ⟨hhead, _, hsent, rfl, rfl, rfl⟩

/-- As long as nothing is stored out of bounds the client can send all that is typed. -/
theorem exists_all_sent (hdefined : ∀ s, (client stdin).Reachable s → s.pc ≠ .undefined)
    (hr : (client stdin).Reachable s) (hpc : s.pc = .prompt) :
    (∀ piece ∈ pieces newline (bufSize - 1) s.stdin, piece.head? ≠ some 0) ∧
      ∃ s', (client stdin).Reachable s' ∧
        s'.sent = s.sent ++ pieces newline (bufSize - 1) s.stdin := by
  induction hlen : s.stdin.length using Nat.strongRecOn generalizing s with
  | _ n ih =>
    by_cases hstdin : s.stdin = []
    · rw [hstdin, Lines.pieces_nil]
      exact ⟨fun _ h => absurd h List.not_mem_nil, s, hr, (List.append_nil _).symm⟩
    · have hpos := List.length_pos_iff.mpr (Lines.takeLine_ne_nil (by decide) hstdin :
        takeLine newline (bufSize - 1) s.stdin ≠ [])
      rw [Lines.pieces_of_ne_nil (by decide) hstdin]
      generalize hline : takeLine newline (bufSize - 1) s.stdin = line at hpos
      obtain ⟨hhead, u, hu, hreceiving, hrest, hsent⟩ :=
        exists_line_sent hdefined hr hpc hstdin hline
      have hreply : step u (.received [0])
          = some { u with buf := u.buf.store 0 [0], pc := .prompt } := by
        simp only [step, hreceiving]
        exact if_pos (by decide)
      have hshort : u.stdin.length < n := by
        rw [hrest, List.length_drop, ← hlen]
        exact Nat.sub_lt (List.length_pos_iff.mpr hstdin) hpos
      obtain ⟨hall, s', hs', hsent'⟩ := ih _ hshort (reachable_step hu hreply) rfl rfl
      rw [hrest] at hall hsent'
      refine ⟨List.forall_mem_cons.mpr ⟨hhead, hall⟩, s', hs', ?_⟩
      rw [hsent', hsent, List.append_assoc]
      rfl

/-- The welcome message is there, and the user is asked for the first line. -/
theorem exists_prompt (stdin : List Byte) : ∃ s, (client stdin).Reachable s ∧
    s.pc = .prompt ∧ s.stdin = stdin ∧ s.sent = [] :=
  ⟨_, .step (.received []) (.init ⟨fun _ => 0, rfl⟩) rfl, rfl, rfl, rfl⟩

/-- **The quit command**: the client does what the user wants exactly if the user does not type
the quit command (and no piece that `fgets` returns begins with a zero). -/
theorem leaves_iff (lines : List (List Byte)) :
    (∀ s, (client lines.flatten).Reachable s → Leaves lines s) ↔
      SERVER_COMMAND ∉ lines ∧
        ∀ piece ∈ pieces newline (bufSize - 1) lines.flatten, piece.head? ≠ some 0 := by
  constructor
  · intro h
    obtain ⟨u, hu, hprompt, hstdin, hnothing⟩ := exists_prompt lines.flatten
    obtain ⟨hpieces, s, hs, hsent⟩ := exists_all_sent (fun s hs => (h s hs).1) hu hprompt
    rw [hstdin] at hpieces hsent
    refine ⟨fun hmem => ?_, hpieces⟩
    obtain ⟨k, hk⟩ := List.mem_iff_getElem?.mp hmem
    refine never_left hs ((h s hs).2.mpr ⟨k, hk, ?_⟩)
    have hall : s.sent.flatten = lines.flatten := by
      rw [hsent, hnothing]
      exact Lines.flatten_pieces (by decide)
    rw [hall]
    exact (List.take_prefix (k + 1) lines).flatten
  · rintro ⟨hquit, hpieces⟩ s hs
    refine ⟨not_undefined hpieces hs, fun hleft => absurd hleft (never_left hs), ?_⟩
    rintro ⟨k, hk, -⟩
    exact absurd (List.mem_of_getElem? hk) hquit

/-- The user types the quit command: it has been sent, and the client waits for a reply. -/
theorem quit_not_left : ∃ s, (client [SERVER_COMMAND].flatten).Reachable s ∧
    s.sent = [SERVER_COMMAND] ∧ s.pc = .receiving ∧ ¬ Leaves [SERVER_COMMAND] s := by
  have hline : takeLine newline (bufSize - 1) [SERVER_COMMAND].flatten = SERVER_COMMAND := by
    decide
  have hquit : Lines.IsLine newline (bufSize - 1) SERVER_COMMAND :=
    Lines.isLine_append (by decide : newline ∉ charBytes "QUIT") (by decide)
  have hpieces : pieces newline (bufSize - 1) [SERVER_COMMAND].flatten = [SERVER_COMMAND] :=
    Lines.pieces_flatten (List.forall_mem_singleton.mpr hquit)
  obtain ⟨u, hu, hprompt, hstdin, hnothing⟩ := exists_prompt [SERVER_COMMAND].flatten
  rw [← hstdin] at hline
  obtain ⟨-, s, hs, hpc, -, hsent⟩ := exists_line_sent
    (fun s hs => not_undefined (by rw [hpieces]; decide) hs) hu hprompt
    (by rw [hstdin]; decide) hline
  rw [hnothing] at hsent
  refine ⟨s, hs, hsent, hpc, fun hleaves => ?_⟩
  have hleft := hleaves.2.mpr ⟨0, rfl, by rw [hsent]; exact List.prefix_rfl⟩
  rw [hpc] at hleft
  cases hleft

end Inv

end EchoClient
