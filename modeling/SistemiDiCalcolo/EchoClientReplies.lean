/-
The replies of Lab08/02, as its client shows them.

The client receives a reply in the buffer that holds its message, and prints the buffer as it
is; for the welcome message it stores a terminator, for the replies it does not.

* `session` — the client, with what each `recv` of the main loop delivers and what is printed
  after it;
* `RepliesEnd` — where the replies have to end, by the lengths of what has been typed and received
  before;
* `prints_iff` — in every session what is printed is what has been delivered, exactly if all
  replies end there.
-/
import SistemiDiCalcolo.EchoClient

open AccessLog (Byte)
open Memory (cString strlen)
open Lines (takeLine pieces)

namespace EchoClient

/-- The client; beside it what each `recv` of the main loop has delivered, and the text that has
been printed after it, `none` if there was no zero in the buffer to end it. -/
structure Session where
  client : State
  delivered : List (List Byte)
  printed : List (Option (List Byte))

/-- What `%s` prints of the buffer. -/
def shown (buf : Memory Byte) : Option (List Byte) :=
  if strlen bufSize buf < bufSize then some (cString bufSize buf) else none

/-- A call is over, and the client goes on to `u`. -/
def Session.prints (s : Session) (ev : Event) (u : State) : Session :=
  match s.client.pc, ev with
  | .receiving, .received data =>
    { client := u, delivered := s.delivered ++ [data], printed := s.printed ++ [shown u.buf] }
  | _, _ => { s with client := u }

/-- The sessions of a user who types `stdin`. -/
def session (stdin : List Byte) : Machine Session Event where
  init s := ∃ buf, s = ⟨start buf stdin, [], []⟩
  step s ev := (step s.client ev).map (s.prints ev)

/-- What has been printed is what has been delivered. -/
def Session.Prints (s : Session) : Prop := s.printed = s.delivered.map some

/-! ### Where the replies have to end -/

/-- What the calls of `recv` deliver: the welcome message, then the replies. -/
def received (evs : List Event) : List (List Byte) :=
  evs.filterMap fun
    | .received data => some data
    | _ => none

/-- A typed line leaves a zero after `r` bytes: behind it, in place of the last character of its
text, or where it has one itself. -/
def LineEnds (typed : List Byte) (r : ℕ) : Prop :=
  r = typed.length ∨ r + 1 = (typed.takeWhile (· ≠ 0)).length ∨ typed[r]? = some 0

instance (typed : List Byte) (r : ℕ) : Decidable (LineEnds typed r) :=
  inferInstanceAs (Decidable (_ ∨ _ ∨ _))

section Inputs

variable (buf : Memory Byte) (welcome : List Byte)

/-- A text of `r` bytes ends where a terminator is, after the exchanges `past`, the latest first:
the latest text that reaches so far is a typed line or the welcome message, and ends there too.
Replies bring no terminator.  Behind all of them is what `buf` held at the beginning. -/
def Ends (r : ℕ) : List (List Byte × List Byte) → Prop
  | [] => r = welcome.length ∨ welcome[r]? = some 0 ∨ welcome.length < r ∧ buf r = 0
  | (line, reply) :: past => reply.length ≤ r ∧ (LineEnds line r ∨ line.length < r ∧ Ends r past)

/-- Each reply of the exchanges that follow `past` leaves room in `buf`, has no zero in it and
ends where a terminator is. -/
def RepliesEnd : List (List Byte × List Byte) → List (List Byte × List Byte) → Prop
  | _, [] => True
  | past, (line, reply) :: exchanges =>
    (0 ∉ reply ∧ reply.length < bufSize ∧ Ends buf welcome reply.length ((line, reply) :: past)) ∧
      RepliesEnd ((line, reply) :: past) exchanges

/-- The replies to the lines that are typed end well; the first thing received is the welcome
message. -/
def SessionEnds (lines : List (List Byte)) : List (List Byte) → Prop
  | [] => True
  | welcome :: replies => RepliesEnd buf welcome [] (lines.zip replies)

instance decidableEnds (r : ℕ) : ∀ past, Decidable (Ends buf welcome r past)
  | [] => inferInstanceAs (Decidable (_ ∨ _ ∨ _))
  | (_, _) :: past =>
    have := decidableEnds r past
    inferInstanceAs (Decidable (_ ∧ (_ ∨ _)))

instance decidableRepliesEnd : ∀ past exchanges, Decidable (RepliesEnd buf welcome past exchanges)
  | _, [] => .isTrue trivial
  | past, (line, reply) :: exchanges =>
    have := decidableRepliesEnd ((line, reply) :: past) exchanges
    inferInstanceAs (Decidable ((_ ∧ _ ∧ _) ∧ _))

end Inputs

/-- The buffer has a zero where the reply will end, and there is none in the reply. -/
def Terminated (s : Session) (ev : Event) : Prop :=
  match s.client.pc, ev with
  | .receiving, .received data =>
    0 ∉ data ∧ data.length < bufSize ∧ s.client.buf data.length = 0
  | _, _ => True

section Sessions

variable {stdin : List Byte} {s s' : Session} {ev : Event} {evs : List Event}

theorem shown_store {buf : Memory Byte} {data : List Byte} : shown (buf.store 0 data) = some data ↔
    0 ∉ data ∧ data.length < bufSize ∧ buf data.length = 0 := by
  have hcell : buf.store 0 data data.length = buf data.length :=
    Memory.store_of_le (Nat.zero_add _).le
  constructor
  · intro h
    rw [shown] at h
    split_ifs at h with hzero
    have htext := Option.some.inj h
    have hne : 0 ∉ data := htext ▸ Memory.zero_notMem_cString
    obtain ⟨hlt, -, hend⟩ := (Memory.cString_eq_iff hne).mp ⟨hzero, htext⟩
    exact ⟨hne, hlt, hcell ▸ hend⟩
  · rintro ⟨hne, hlt, hend⟩
    obtain ⟨hzero, htext⟩ :=
      (Memory.cString_eq_iff hne).mpr ⟨hlt, Memory.load_store, hcell.trans hend⟩
    rw [shown, if_pos hzero, htext]

theorem prints_client {u : State} : (s.prints ev u).client = u := by
  unfold Session.prints
  split <;> rfl

/-- A session is one of the client. -/
theorem session_client (hrun : (session stdin).run s evs = some s') :
    (client stdin).run s.client evs = some s'.client := by
  have hclient := Machine.run_map (M := session stdin) (N := client stdin) (f := Session.client)
    (I := fun _ => True) (s := s) ?_ (fun _ _ _ _ _ => trivial) trivial evs
  · rw [hclient, hrun, Option.map_some]
  · intro s ev _
    show step s.client ev = ((step s.client ev).map (s.prints ev)).map Session.client
    have hprints : Session.client ∘ s.prints ev = id := by
      funext u
      exact prints_client
    rw [Option.map_map, hprints, Option.map_id, id]

/-- What one step does to what is printed. -/
theorem prints_step (h : (session stdin).step s ev = some s') :
    s'.Prints ↔ s.Prints ∧ Terminated s ev := by
  obtain ⟨u, hu, rfl⟩ := Option.map_eq_some_iff.mp h
  cases hpc : s.client.pc with
  | receiving =>
    cases ev with
    | received data =>
      simp only [step, hpc] at hu
      split_ifs at hu
      cases hu
      simp only [Session.Prints, Session.prints, Terminated, hpc]
      rw [List.map_append, List.map_cons, List.map_nil, List.append_singleton_inj, shown_store]
    | interrupted | error | typed | taken n =>
      simp only [Session.Prints, Session.prints, Terminated, hpc, and_true]
  | welcome | prompt | sending msg_len | left | failed | undefined =>
    simp only [Session.Prints, Session.prints, Terminated, hpc, and_true]

/-- What is printed is what has been delivered exactly if the buffer terminates all replies. -/
theorem prints_iff_along (hrun : (session stdin).run s evs = some s') (hs : s.Prints) :
    s'.Prints ↔ (session stdin).Along Terminated s evs :=
  (Machine.along_iff (I := Session.Prints) (fun _ _ _ => prints_step) hrun).trans
    (and_iff_right hs)

/-! ### The zeros of the buffer -/

/-- A text that is stored with a terminator. -/
theorem store_text_eq_zero {buf : Memory Byte} {xs : List Byte} {r : ℕ} :
    buf.store 0 (xs ++ [0]) r = 0 ↔
      r = xs.length ∨ xs[r]? = some 0 ∨ xs.length < r ∧ buf r = 0 := by
  rw [Memory.store_eq_zero_iff, List.length_append, List.length_singleton, Nat.succ_le_iff]
  rcases Nat.lt_trichotomy r xs.length with hr | rfl | hr
  · rw [List.getElem?_append_left hr]
    exact (or_iff_right hr.ne).symm
  · simp
  · rw [List.getElem?_eq_none (by rwa [List.length_append]), List.getElem?_eq_none hr.le]
    exact (or_iff_right hr.ne').symm

/-- A text that is stored without. -/
theorem store_reply_eq_zero {buf : Memory Byte} {reply : List Byte} {r : ℕ} (hne : 0 ∉ reply) :
    buf.store 0 reply r = 0 ↔ reply.length ≤ r ∧ buf r = 0 := by
  rw [Memory.store_eq_zero_iff]
  exact or_iff_right fun h => hne (List.mem_of_getElem? h)

/-- A line that is stored, and stripped of the last character of its text. -/
theorem store_line_eq_zero {buf : Memory Byte} {line : List Byte} {k r : ℕ}
    (hlen : line.length < bufSize) (hk : k + 1 = strlen bufSize (buf.store 0 (line ++ [0]))) :
    (buf.store 0 (line ++ [0])).store k [0] r = 0 ↔
      LineEnds line r ∨ line.length < r ∧ buf r = 0 := by
  have htext : r = k ↔ r + 1 = (line.takeWhile (· ≠ 0)).length := by
    rw [← Memory.cString_store hlen, ← strlen, ← hk, Nat.add_right_cancel_iff]
  have hstrip : (buf.store 0 (line ++ [0])).store k [0] r = 0 ↔
      r = k ∨ buf.store 0 (line ++ [0]) r = 0 := by
    by_cases hr : r = k
    · subst hr
      exact iff_of_true Memory.store_self (.inl rfl)
    · rw [Memory.store_eq_of_ne hr, or_iff_right hr]
  rw [hstrip, store_text_eq_zero, htext, LineEnds, or_left_comm, or_assoc, or_assoc]

/-- The main loop is over. -/
def Pc.Ended : Pc → Prop
  | .left | .failed | .undefined => True
  | _ => False

/-- A line has been typed, and no reply has come. -/
def Pc.Unanswered : Pc → Prop
  | .sending _ | .receiving => True
  | _ => False

/-- The lines that are still to be answered. -/
def State.pending (t : State) : List (List Byte) :=
  match t.pc with
  | .sending _ | .receiving => t.line :: pieces newline (bufSize - 1) t.stdin
  | _ => pieces newline (bufSize - 1) t.stdin

/-- After the welcome message and the exchanges `past` the zeros of the buffer are where `Ends`
says, and where the line that has been typed since has put them. -/
structure Zeros (buf : Memory Byte) (welcome : List Byte) (past : List (List Byte × List Byte))
    (t : State) : Prop where
  welcomed : t.pc ≠ .welcome
  prompt : t.pc = .prompt → ∀ r, t.buf r = 0 ↔ Ends buf welcome r past
  typed : t.pc.Unanswered → ∀ r,
    t.buf r = 0 ↔ LineEnds t.line r ∨ t.line.length < r ∧ Ends buf welcome r past

/-- What a call of the main loop does to the client, by what it gives. -/
inductive LoopStep (t : State) : Event → State → Prop
  | ended (ev : Event) (u : State) : u.pc.Ended → (∀ data, ev ≠ .received data) → LoopStep t ev u
  | interrupted : LoopStep t .interrupted t
  | typed (k : ℕ) (u : State) : t.pc = .prompt → t.stdin ≠ [] →
      u = t.sends (takeLine newline (bufSize - 1) t.stdin) → u.pc = .sending k →
      LoopStep t .typed u
  | taken (k n : ℕ) : t.pc = .sending k →
      LoopStep t (.taken n) { t with sent := t.sent ++ [t.line], pc := .receiving }
  | received (data : List Byte) : t.pc = .receiving →
      LoopStep t (.received data) { t with buf := t.buf.store 0 data, pc := .prompt }

variable {buf : Memory Byte} {welcome line : List Byte} {past : List (List Byte × List Byte)}
  {t u : State}

theorem loop_step (ht : t.pc ≠ .welcome) (h : step t ev = some u) : LoopStep t ev u := by
  cases hpc : t.pc with
  | welcome => exact absurd hpc ht
  | prompt =>
    cases ev with
    | typed =>
      simp only [step, hpc] at h
      split_ifs at h with hstdin
      · cases h
        exact .ended _ _ trivial fun _ => Event.noConfusion
      · obtain rfl := Option.some.inj h
        -- a line that begins with a zero leaves nothing to strip
        rcases sends_cases t (takeLine newline (bufSize - 1) t.stdin) with
          ⟨-, hundef⟩ | ⟨k, -, heq⟩
        · exact .ended _ _ (by rw [hundef]; trivial) fun _ => Event.noConfusion
        · exact .typed k _ hpc hstdin rfl (by rw [heq])
    | interrupted | error | received data | taken n =>
      simp only [step, hpc] at h
      cases h
  | sending k =>
    cases ev with
    | interrupted =>
      simp only [step, hpc] at h
      cases h
      exact .interrupted
    | error =>
      simp only [step, hpc] at h
      cases h
      exact .ended _ _ trivial fun _ => Event.noConfusion
    | taken n =>
      simp only [step, hpc] at h
      split_ifs at h
      obtain rfl := Option.some.inj h
      rw [State.hasSent]
      split_ifs
      · exact .ended _ _ trivial fun _ => Event.noConfusion
      · exact .taken k n hpc
    | received data | typed =>
      simp only [step, hpc] at h
      cases h
  | receiving =>
    cases ev with
    | interrupted =>
      simp only [step, hpc] at h
      cases h
      exact .interrupted
    | error =>
      simp only [step, hpc] at h
      cases h
      exact .ended _ _ trivial fun _ => Event.noConfusion
    | received data =>
      simp only [step, hpc] at h
      split_ifs at h
      cases h
      exact .received data hpc
    | typed | taken n =>
      simp only [step, hpc] at h
      cases h
  | left | failed | undefined =>
    simp only [step, hpc] at h
    cases h

/-- Nothing follows the end. -/
theorem step_of_ended (ht : t.pc.Ended) : step t ev = none := by
  cases hpc : t.pc with
  | left | failed | undefined => simp only [step, hpc]
  | welcome | prompt | sending k | receiving =>
    rw [hpc] at ht
    exact ht.elim

theorem run_of_ended (hs : s.client.pc.Ended) (hrun : (session stdin).run s evs = some s') :
    evs = [] := by
  cases evs with
  | nil => rfl
  | cons ev evs =>
    obtain ⟨u, hu, -⟩ := Machine.run_cons_eq_some.mp hrun
    obtain ⟨t, ht, -⟩ := Option.map_eq_some_iff.mp hu
    rw [step_of_ended hs] at ht
    cases ht

/-- The welcome message is there. -/
theorem zeros_welcome : Zeros buf welcome [] { start buf stdin with
    buf := buf.store 0 (welcome ++ [0]), pc := .prompt } :=
  ⟨Pc.noConfusion, fun _ _ => store_text_eq_zero, fun h => h.elim⟩

/-- A line is typed. -/
theorem Zeros.sends {k : ℕ} (ht : Zeros buf welcome past t) (hpc : t.pc = .prompt)
    (hlen : line.length < bufSize) (hu : u = t.sends line) (hk : u.pc = .sending k) :
    Zeros buf welcome past u := by
  rcases sends_cases t line with ⟨-, hundef⟩ | ⟨k, hstrlen, heq⟩
  · rw [hu, hundef] at hk
    cases hk
  · rw [hu, heq]
    refine ⟨Pc.noConfusion, Pc.noConfusion, fun _ r => ?_⟩
    exact (store_line_eq_zero hlen hstrlen).trans
      (or_congr_right (and_congr_right fun _ => ht.prompt hpc r))

theorem pending_sends {k : ℕ} (hpc : t.pc = .prompt) (hstdin : t.stdin ≠ [])
    (hu : u = t.sends (takeLine newline (bufSize - 1) t.stdin)) (hk : u.pc = .sending k) :
    u.pending = t.pending := by
  rcases sends_cases t (takeLine newline (bufSize - 1) t.stdin) with ⟨-, hundef⟩ | ⟨k, -, heq⟩
  · rw [hu, hundef] at hk
    cases hk
  · rw [hu, heq, State.pending, State.pending, hpc]
    exact (Lines.pieces_of_ne_nil (by decide) hstdin).symm

/-- A reply is received. -/
theorem Zeros.received {reply : List Byte} (ht : Zeros buf welcome past t)
    (hpc : t.pc = .receiving) (hne : 0 ∉ reply) :
    Zeros buf welcome ((t.line, reply) :: past)
      { t with buf := t.buf.store 0 reply, pc := .prompt } := by
  refine ⟨Pc.noConfusion, fun _ r => ?_, fun h => h.elim⟩
  exact (store_reply_eq_zero hne).trans
    (and_congr_right fun _ => ht.typed (by rw [hpc]; trivial) r)

/-- A call that delivers nothing. -/
theorem received_cons_of_ne (h : ∀ data, ev ≠ .received data) :
    received (ev :: evs) = received evs := by
  cases ev with
  | received data => exact absurd rfl (h data)
  | interrupted | error | typed | taken n => rfl

theorem terminated_of_ne (h : ∀ data, ev ≠ .received data) : Terminated s ev := by
  cases ev with
  | received data => exact absurd rfl (h data)
  | interrupted | error | typed | taken n =>
    unfold Terminated
    split
    · exact Event.noConfusion ‹_›
    · trivial

/-- **The replies of a run**: from a state of the main loop on all replies are terminated by what
the buffer holds exactly if they end where what has been typed and received before says. -/
theorem along_iff_repliesEnd (hs : Zeros buf welcome past s.client)
    (hrun : (session stdin).run s evs = some s') :
    (session stdin).Along Terminated s evs ↔
      RepliesEnd buf welcome past (s.client.pending.zip (received evs)) := by
  -- the invariant is `Zeros`: where the buffer has zeros after the exchanges of the past
  induction evs generalizing s past with
  | nil =>
    rw [received, List.filterMap_nil, List.zip_nil_right]
    exact Iff.rfl
  | cons ev evs ih =>
    obtain ⟨s₁, hs₁, hr⟩ := Machine.run_cons_eq_some.mp hrun
    obtain ⟨u, hu, rfl⟩ := Option.map_eq_some_iff.mp hs₁
    have hclient : (s.prints ev u).client = u := prints_client
    rw [Machine.along_cons hs₁]
    cases loop_step hs.welcomed hu with
    | ended _ _ hended hev =>
      obtain rfl := run_of_ended (by rwa [hclient]) hr
      rw [received_cons_of_ne hev, received, List.filterMap_nil, List.zip_nil_right]
      exact iff_of_true ⟨terminated_of_ne hev, trivial⟩ trivial
    | interrupted =>
      rw [and_iff_right (terminated_of_ne fun _ => Event.noConfusion),
        ih (by rwa [hclient]) hr, hclient]
      exact Iff.rfl
    | typed k _ hpc hstdin hsends hk =>
      have hzeros := hs.sends hpc (length_takeLine_lt s.client.stdin) hsends hk
      rw [and_iff_right (terminated_of_ne fun _ => Event.noConfusion),
        ih (by rwa [hclient]) hr, hclient, pending_sends hpc hstdin hsends hk]
      exact Iff.rfl
    | taken k n hpc =>
      have hpending : s.client.pending
          = s.client.line :: pieces newline (bufSize - 1) s.client.stdin := by
        rw [State.pending, hpc]
      have hzeros : Zeros buf welcome past
          { s.client with sent := s.client.sent ++ [s.client.line], pc := .receiving } :=
        ⟨Pc.noConfusion, Pc.noConfusion, fun _ => hs.typed (by rw [hpc]; trivial)⟩
      rw [and_iff_right (terminated_of_ne fun _ => Event.noConfusion),
        ih (by rwa [hclient]) hr, hclient, hpending]
      exact Iff.rfl
    | received data hpc =>
      have hpending : s.client.pending
          = s.client.line :: pieces newline (bufSize - 1) s.client.stdin := by
        rw [State.pending, hpc]
      have hends : Terminated s (.received data) ↔ 0 ∉ data ∧ data.length < bufSize ∧
          Ends buf welcome data.length ((s.client.line, data) :: past) := by
        rw [Ends, and_iff_right le_rfl, ← hs.typed (by rw [hpc]; trivial)]
        simp only [Terminated, hpc]
      rw [hpending, hends]
      -- the replies that follow find this one in the buffer
      refine and_congr_right fun hgood => ?_
      rw [ih (by rw [hclient]; exact hs.received hpc hgood.1) hr, hclient]
      exact Iff.rfl

/-- The same from the beginning, where the welcome message is still to come. -/
theorem along_iff_sessionEnds (hs : s.client = start buf stdin)
    (hrun : (session stdin).run s evs = some s') : (session stdin).Along Terminated s evs ↔
      SessionEnds buf (pieces newline (bufSize - 1) stdin) (received evs) := by
  induction evs generalizing s with
  | nil => exact Iff.rfl
  | cons ev evs ih =>
    obtain ⟨s₁, hs₁, hr⟩ := Machine.run_cons_eq_some.mp hrun
    obtain ⟨u, hu, rfl⟩ := Option.map_eq_some_iff.mp hs₁
    have hclient : (s.prints ev u).client = u := prints_client
    rw [Machine.along_cons hs₁]
    rw [hs] at hu
    -- until the welcome message comes there are only calls that are interrupted
    cases ev with
    | interrupted =>
      cases hu
      rw [and_iff_right (terminated_of_ne fun _ => Event.noConfusion), ih hclient hr]
      exact Iff.rfl
    | error =>
      cases hu
      obtain rfl := run_of_ended (by rw [hclient]; trivial) hr
      exact iff_of_true ⟨terminated_of_ne fun _ => Event.noConfusion, trivial⟩ trivial
    | received welcome =>
      simp only [step, start] at hu
      split_ifs at hu
      obtain rfl := Option.some.inj hu
      have hterminated : Terminated s (.received welcome) := by
        simp only [Terminated, hs, start]
      rw [and_iff_right hterminated,
        along_iff_repliesEnd (by rw [hclient]; exact zeros_welcome) hr, hclient]
      exact Iff.rfl
    | typed | taken n => cases hu

/-- **The replies**: in a session what is printed after each `recv` of the main loop is what this
`recv` has delivered, and the printing stays in the buffer, exactly if all replies end where what
has been typed and received before them leaves a terminator. -/
theorem prints_iff (hrun : (session stdin).run ⟨start buf stdin, [], []⟩ evs = some s') :
    s'.printed = s'.delivered.map some ↔
      SessionEnds buf (pieces newline (bufSize - 1) stdin) (received evs) :=
  (prints_iff_along hrun rfl).trans (along_iff_sessionEnds rfl hrun)

/-! ### Sessions -/

/-- The buffer of a client that has sent `text`. -/
def sentBuf (buf : Memory Byte) (text : List Byte) : Memory Byte :=
  (buf.store 0 (text ++ [newline] ++ [0])).store text.length [0]

/-- The line is typed, and the newline in the buffer becomes the terminator. -/
theorem step_typed_line {text rest : List Byte} (hpc : t.pc = .prompt)
    (hstdin : t.stdin = text ++ [newline] ++ rest) (hline : newline ∉ text) (hzero : 0 ∉ text)
    (hlen : text.length + 1 < bufSize) :
    step t .typed = some { t with
      pc := .sending text.length
      buf := sentBuf t.buf text
      stdin := rest
      line := text ++ [newline] } := by
  have htake : takeLine newline (bufSize - 1) t.stdin = text ++ [newline] := by
    rw [hstdin]
    exact Lines.takeLine_append (Lines.isLine_append hline (Nat.lt_pred_of_succ_lt hlen))
  have hfits : (text ++ [newline]).length < bufSize := by rwa [List.length_append]
  -- what `strlen` finds is the terminator that `fgets` has stored
  have hstrlen : strlen bufSize (t.buf.store 0 (text ++ [newline] ++ [0])) = text.length + 1 := by
    have hne : 0 ∉ text ++ [newline] := by
      rw [List.mem_append, not_or]
      exact ⟨hzero, by decide⟩
    rw [strlen, Memory.cString_store_of_notMem hfits hne, List.length_append]
    rfl
  have hne : t.stdin ≠ [] := by
    rw [hstdin, List.append_assoc]
    exact List.append_ne_nil_of_right_ne_nil _ (List.cons_ne_nil _ _)
  rw [step_typed hpc hne htake]
  simp only [State.sends, hstrlen, Nat.succ_ne_zero, if_false, Nat.add_sub_cancel]
  rw [hstdin, List.drop_left]
  rfl

/-- The line is taken as a whole. -/
theorem step_taken_line {text : List Byte} (hpc : t.pc = .sending text.length)
    (hbuf : t.buf.load 0 text.length = text) (hline : newline ∉ text) :
    step t (.taken text.length)
      = some { t with pc := .receiving, sent := t.sent ++ [t.line] } := by
  have hroom : text.length ≤ text.length ∧ (text.length = 0 → text.length = 0) := ⟨le_rfl, id⟩
  simp only [step, hpc, if_pos hroom]
  rw [hasSent_eq (by rw [hbuf]; exact hline)]

/-- A call other than the `recv` of a reply. -/
theorem session_step (h : step s.client ev = some u) (hpc : s.client.pc ≠ .receiving) :
    (session stdin).step s ev = some { s with client := u } := by
  show (step s.client ev).map (s.prints ev) = _
  rw [h, Option.map_some]
  unfold Session.prints
  split
  · exact absurd ‹s.client.pc = .receiving› hpc
  · rfl

/-- A reply is received, and the buffer is printed. -/
theorem step_received {data : List Byte} (hpc : s.client.pc = .receiving)
    (hdata : data.length ≤ bufSize) : (session stdin).step s (.received data) =
      some ⟨{ s.client with buf := s.client.buf.store 0 data, pc := .prompt },
        s.delivered ++ [data], s.printed ++ [shown (s.client.buf.store 0 data)]⟩ := by
  show (step s.client (.received data)).map (s.prints (.received data)) = _
  simp only [step, hpc, if_pos hdata, Option.map_some, Session.prints]

/-- A line is typed and sent, and a reply received. -/
theorem run_exchange {text rest data : List Byte} (hpc : s.client.pc = .prompt)
    (hstdin : s.client.stdin = text ++ [newline] ++ rest) (hline : newline ∉ text)
    (hzero : 0 ∉ text) (hlen : text.length + 1 < bufSize) (hdata : data.length ≤ bufSize) :
    ∃ s₁, (session stdin).run s [.typed, .taken text.length, .received data] = some s₁ ∧
      s₁.client.pc = .prompt ∧ s₁.client.stdin = rest ∧ s₁.delivered = s.delivered ++ [data] ∧
      s₁.printed = s.printed ++ [shown ((sentBuf s.client.buf text).store 0 data)] := by
  have htyped := step_typed_line hpc hstdin hline hzero hlen
  have hload : (sentBuf s.client.buf text).load 0 text.length = text := by
    rw [sentBuf, Memory.load_store_end, List.append_assoc, Memory.load_store_left]
  have hprompt : s.client.pc ≠ .receiving := by
    rw [hpc]
    exact Pc.noConfusion
  rw [Machine.run_cons (session_step htyped hprompt),
    Machine.run_cons (session_step (step_taken_line rfl hload hline) Pc.noConfusion),
    Machine.run_cons (step_received rfl hdata)]
  exact ⟨_, rfl, rfl, rfl, rfl, rfl⟩

/-- The welcome message is received, and a line answered. -/
theorem run_first_exchange {text rest data : List Byte} (hwelcome : welcome.length ≤ bufSize - 1)
    (hstdin : stdin = text ++ [newline] ++ rest) (hline : newline ∉ text) (hzero : 0 ∉ text)
    (hlen : text.length + 1 < bufSize) (hdata : data.length ≤ bufSize) :
    ∃ s₁, (session stdin).run ⟨start buf stdin, [], []⟩
        [.received welcome, .typed, .taken text.length, .received data] = some s₁ ∧
      s₁.client.pc = .prompt ∧ s₁.client.stdin = rest ∧ s₁.delivered = [data] ∧ s₁.printed
        = [shown ((sentBuf (buf.store 0 (welcome ++ [0])) text).store 0 data)] := by
  have hstep : step (start buf stdin) (.received welcome)
      = some { start buf stdin with buf := buf.store 0 (welcome ++ [0]), pc := .prompt } := by
    simp only [step, start, if_pos hwelcome]
  rw [Machine.run_cons (session_step hstep Pc.noConfusion)]
  exact run_exchange rfl hstdin hline hzero hlen hdata

/-- Two lines are typed.  The first reply is an echo; the second is longer than its line and ends
where the first message did. -/
theorem prints_longer : ∃ s, (session (charBytes "hello\nabc\n")).run
    ⟨start (fun _ => newline) (charBytes "hello\nabc\n"), [], []⟩
      [.received (charBytes "hi"), .typed, .taken 5, .received (charBytes "hello"),
        .typed, .taken 3, .received (charBytes "world")] = some s ∧
    s.delivered = [charBytes "hello", charBytes "world"] ∧
    s.printed = s.delivered.map some := by
  obtain ⟨s, hs, hpc, hstdin, hdelivered, -⟩ := run_first_exchange
    (by decide : (charBytes "hi").length ≤ bufSize - 1)
    (by rfl : charBytes "hello\nabc\n" = charBytes "hello" ++ [newline] ++ charBytes "abc\n")
    (by decide) (by decide) (by decide) (by decide : (charBytes "hello").length ≤ bufSize)
  -- this reply is longer than its line, and ends where the line before did
  obtain ⟨u, hu, -, -, hboth, -⟩ := run_exchange hpc
    (hstdin.trans (by rfl) : _ = charBytes "abc" ++ [newline] ++ [])
    (by decide) (by decide) (by decide) (by decide : (charBytes "world").length ≤ bufSize)
  have hrun := Machine.run_append hs hu
  have hpieces : pieces newline (bufSize - 1) (charBytes "hello\nabc\n")
      = [charBytes "hello\n", charBytes "abc\n"] :=
    Lines.pieces_flatten (List.forall_mem_cons.mpr
      ⟨Lines.isLine_append (by decide : newline ∉ charBytes "hello") (by decide),
        List.forall_mem_singleton.mpr
          (Lines.isLine_append (by decide : newline ∉ charBytes "abc") (by decide))⟩)
  refine ⟨u, hrun, hboth.trans (by rw [hdelivered]; rfl), (prints_iff hrun).mpr ?_⟩
  rw [hpieces]
  show RepliesEnd _ _ _ _
  decide

/-- A reply that is shorter than the message is printed with what is left of the message. -/
theorem short_reply_stale : ∃ s, (session (charBytes "hello" ++ [newline])).run
    ⟨start (fun _ => 0) (charBytes "hello" ++ [newline]), [], []⟩
      [.received [], .typed, .taken 5, .received (charBytes "hi")] = some s ∧
    s.delivered = [charBytes "hi"] ∧ s.printed = [some (charBytes "hillo")] := by
  obtain ⟨s, hs, -, -, hdelivered, hprinted⟩ := run_first_exchange
    (by decide : [].length ≤ bufSize - 1) (List.append_nil _).symm
    (by decide : newline ∉ charBytes "hello") (by decide) (by decide)
    (by decide : (charBytes "hi").length ≤ bufSize)
  refine ⟨s, hs, hdelivered, ?_⟩
  rw [hprinted, shown]
  have htext : strlen bufSize _ < bufSize ∧ cString bufSize
      ((sentBuf (Memory.store (fun _ => 0) 0 ([] ++ [0])) (charBytes "hello")).store 0
        (charBytes "hi")) = charBytes "hillo" :=
    (Memory.cString_eq_iff (by decide)).mpr ⟨by decide, by decide, by decide⟩
  rw [if_pos htext.1, htext.2]

end Sessions

end EchoClient
