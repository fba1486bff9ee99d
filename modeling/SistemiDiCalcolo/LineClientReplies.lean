/-
The replies of Lab08/01, as its client shows them.

The loop for the reply has no bound, and it stores a line without a terminator in the buffer that
holds the message: what is shown goes on with what the buffer held after the line.

* `ShowsReply` — a pass stays in the buffer, and what it shows is the line;
* `Fits` — when it is so: the line ends in the buffer, and if it ends with a newline, there is a
  zero in the cell after it when the pass begins;
* `shows_iff` — the equivalence, and `fits_echo`: an echo of the message fits.
-/
import SistemiDiCalcolo.LineClient

open AccessLog (Byte)
open Memory (cString strlen)
open EchoServer (SERVER_COMMAND newline bufSize IsEnd)

namespace LineClient

/-- The pass that began in `s₀` has not gone out of the buffer, and if it is over, the line is
what it has shown. -/
structure ShowsReply (s₀ s : State) : Prop where
  inside : s.pc ≠ .undefined
  shown : s.pc = .prompt → s.shown = s₀.shown ++ [replyLine s₀.input]

/-- The line ends in the buffer, or all there is fits; after a newline there is a zero. -/
def Fits (buf : Memory Byte) (input : List Byte) : Prop :=
  match replyEnd input with
  | none => (replyBody input).length ≤ bufSize
  | some c =>
    if c = 0 then (replyBody input).length < bufSize
    else (replyBody input).length + 1 < bufSize ∧ buf ((replyBody input).length + 1) = 0

/-! ### The line -/

section Line

variable {body got rest input : List Byte} {c : Byte}

/-- No byte at which the loop stops. -/
def Endless (xs : List Byte) : Prop := ∀ b ∈ xs, isBody b

instance : DecidablePred Endless := fun xs => inferInstanceAs (Decidable (∀ b ∈ xs, isBody b))

theorem isBody_iff : isBody c ↔ ¬ IsEnd c := decide_eq_true_iff

theorem Endless.zero_notMem (h : Endless body) : 0 ∉ body := fun hmem =>
  isBody_iff.mp (h 0 hmem) (.inr rfl)

theorem line_of_endless (h : Endless input) : replyBody input = input ∧ replyEnd input = none := by
  refine ⟨List.takeWhile_eq_self_iff.mpr h, ?_⟩
  rw [replyEnd, List.dropWhile_eq_nil_iff.mpr h, List.head?_nil]

theorem line_of_end (rest : List Byte) (h : Endless body) (hc : IsEnd c) :
    replyBody (body ++ c :: rest) = body ∧ replyEnd (body ++ c :: rest) = some c := by
  have hstop : ¬ isBody c := fun hbody => isBody_iff.mp hbody hc
  constructor
  · rw [replyBody, List.takeWhile_append_of_pos h, List.takeWhile_cons_of_neg hstop,
      List.append_nil]
  · rw [replyEnd, List.dropWhile_append_of_pos h, List.dropWhile_cons_of_neg hstop,
      List.head?_cons]

theorem line_cases (input : List Byte) : Endless input ∨
    ∃ body c rest, input = body ++ c :: rest ∧ Endless body ∧ IsEnd c := by
  have hsplit : replyBody input ++ input.dropWhile isBody = input :=
    List.takeWhile_append_dropWhile
  have hbody : Endless (replyBody input) := fun b hb => List.mem_takeWhile_imp hb
  cases hrest : input.dropWhile isBody with
  | nil =>
    rw [hrest, List.append_nil] at hsplit
    exact .inl (hsplit ▸ hbody)
  | cons c rest =>
    have hc : isBody c = false := by
      have hne : input.dropWhile isBody ≠ [] := by
        rw [hrest]
        exact List.cons_ne_nil c rest
      have hhead := List.head_dropWhile_not isBody hne
      simpa only [hrest, List.head_cons] using hhead
    rw [hrest] at hsplit
    refine .inr ⟨_, c, rest, hsplit.symm, hbody, by_contra fun hend => ?_⟩
    rw [isBody_iff.mpr hend] at hc
    cases hc

/-- What has been received without an end is part of the body. -/
theorem length_le_body (rest : List Byte) (h : Endless got) :
    got.length ≤ (replyBody (got ++ rest)).length := by
  rw [replyBody, List.takeWhile_append_of_pos h, List.length_append]
  exact Nat.le_add_right _ _

end Line

/-! ### A pass -/

section Pass

variable {s₀ s s' : State} {got rest : List Byte} {c : Byte}

/-- The pass has received `got`, and the line goes on. -/
def within (s₀ : State) (got rest : List Byte) : State :=
  { s₀ with pc := .reply got.length, buf := s₀.buf.store 0 got, input := rest }

/-- The pass has received the end of the line. -/
def ended (s₀ : State) (got : List Byte) (c : Byte) (rest : List Byte) : State :=
  { within s₀ got rest with buf := s₀.buf.store 0 (got ++ [c]) }

/-- The pass is over. -/
def passed (s₀ : State) (got : List Byte) (c : Byte) (rest : List Byte) : State :=
  (ended s₀ got c rest).shows

/-- How far the pass that began in `s₀` can come. -/
inductive Stage (s₀ : State) : State → Prop
  | within (got rest : List Byte) : s₀.input = got ++ rest → Endless got →
      Stage s₀ (within s₀ got rest)
  | outside (got rest : List Byte) (c : Byte) (s : State) : s₀.input = got ++ c :: rest →
      Endless got → bufSize ≤ got.length → s.pc = .undefined → Stage s₀ s
  | passed (got rest : List Byte) (c : Byte) : s₀.input = got ++ c :: rest → Endless got →
      IsEnd c → got.length < bufSize → Stage s₀ (passed s₀ got c rest)
  | failed (s : State) : s.pc = .failed → Stage s₀ s

/-- A byte is stored after what has been received. -/
theorem byte_of_lt (s₀ : State) (c : Byte) (rest : List Byte) (hlt : got.length < bufSize) :
    step (within s₀ got (c :: rest)) .byte
      = some (if IsEnd c then passed s₀ got c rest else within s₀ (got ++ [c]) rest) := by
  have hbuf : (s₀.buf.store 0 got).store got.length [c] = s₀.buf.store 0 (got ++ [c]) := by
    rw [Memory.store_append, Nat.zero_add]
  simp only [step, within, State.recv, if_pos hlt, State.stored, hbuf, Memory.store_concat, passed,
    ended, List.length_append, List.length_singleton]

/-- There is no room for a byte. -/
theorem byte_of_le (hle : bufSize ≤ got.length) : step (within s₀ got (c :: rest)) .byte
    = some { within s₀ got (c :: rest) with pc := .undefined } := by
  simp only [step, within, State.recv, if_neg (Nat.not_lt.mpr hle)]

theorem shows_pc (s : State) : s.shows.pc = .prompt ∨ s.shows.pc = .undefined := by
  rw [State.shows]
  split_ifs
  · exact .inl rfl
  · exact .inr rfl

theorem Stage.step {ev : Event} (hs : Stage s₀ s) (h : (replyPass s₀).step s ev = some s') :
    Stage s₀ s' := by
  cases hs with
  | within got rest hinput hgot =>
    have h : LineClient.step (LineClient.within s₀ got rest) ev = some s' := h
    cases ev with
    | interrupted =>
      obtain rfl := Option.some.inj h
      exact .within got rest hinput hgot
    | error =>
      obtain rfl := Option.some.inj h
      exact .failed _ rfl
    | closed =>
      have h : (if rest = [] then some { LineClient.within s₀ got rest with pc := .failed }
        else none) = some s' := h
      split_ifs at h
      obtain rfl := Option.some.inj h
      exact .failed _ rfl
    | byte =>
      cases rest with
      | nil => cases h
      | cons c rest =>
        -- the byte goes on with the line or ends it, or there is no room for it
        rcases Nat.lt_or_ge got.length bufSize with hlt | hle
        · rw [byte_of_lt s₀ c rest hlt] at h
          obtain rfl := Option.some.inj h
          split_ifs with hc
          · exact .passed got rest c hinput hgot hc hlt
          · refine .within (got ++ [c]) rest (by rw [hinput, List.append_assoc]; rfl) ?_
            have hnew : ∀ b ∈ [c], isBody b := List.forall_mem_singleton.mpr (isBody_iff.mpr hc)
            exact List.forall_mem_append.mpr ⟨hgot, hnew⟩
        · rw [byte_of_le hle] at h
          obtain rfl := Option.some.inj h
          exact .outside got rest c _ hinput hgot hle rfl
    | typed | taken n => cases h
  | outside got rest c s _ _ _ hpc | failed s hpc =>
    simp only [replyPass, hpc] at h
    cases h
  | passed got rest c _ _ _ _ =>
    rcases shows_pc (ended s₀ got c rest) with hpc | hpc
    all_goals
      rw [replyPass] at h
      simp only [LineClient.passed, hpc] at h
      cases h

theorem within_nil (hpc : s₀.pc = .reply 0) : within s₀ [] s₀.input = s₀ := by
  have hbuf : s₀.buf.store 0 [] = s₀.buf := funext fun i => Memory.store_of_le (Nat.zero_le i)
  rw [within, hbuf, List.length_nil, ← hpc]

theorem Stage.of_reachable (hpc : s₀.pc = .reply 0) (h : (replyPass s₀).Reachable s) :
    Stage s₀ s := by
  refine h.invariant ?_ fun s ev s' _ hs hstep => hs.step hstep
  rintro s rfl
  have hs : Stage s (LineClient.within s [] s.input) := .within [] s.input rfl nofun
  rwa [within_nil hpc] at hs

/-- What has been received without an end, as long as it fits. -/
theorem reachable_within (hpc : s₀.pc = .reply 0) (hinput : s₀.input = got ++ rest)
    (hgot : Endless got) (hle : got.length ≤ bufSize) :
    (replyPass s₀).Reachable (within s₀ got rest) := by
  induction got using List.reverseRecOn generalizing rest with
  | nil =>
    rw [List.nil_append] at hinput
    rw [← hinput, within_nil hpc]
    exact .init rfl
  | append_singleton got c ih =>
    rw [List.length_append] at hle
    have hc : ¬ IsEnd c := isBody_iff.mp (hgot c (List.mem_append_right _ List.mem_cons_self))
    have hbyte := byte_of_lt s₀ c rest (Nat.lt_of_succ_le hle)
    rw [if_neg hc] at hbyte
    have hbefore : (replyPass s₀).Reachable (within s₀ got (c :: rest)) :=
      ih (by rw [hinput, List.append_assoc]; rfl) (fun b hb => hgot b (List.mem_append_left _ hb))
        (Nat.le_of_succ_le hle)
    exact hbefore.step .byte hbyte

/-- The end of the line, if it is in the buffer. -/
theorem reachable_passed (hpc : s₀.pc = .reply 0) (hinput : s₀.input = got ++ c :: rest)
    (hgot : Endless got) (hc : IsEnd c) (hlt : got.length < bufSize) :
    (replyPass s₀).Reachable (passed s₀ got c rest) := by
  have hbyte := byte_of_lt s₀ c rest hlt
  rw [if_pos hc] at hbyte
  exact (reachable_within hpc hinput hgot hlt.le).step .byte hbyte

/-- A byte that has no room. -/
theorem exists_undefined (hpc : s₀.pc = .reply 0) (hinput : s₀.input = got ++ c :: rest)
    (hgot : Endless got) (hle : bufSize ≤ got.length) :
    ∃ s, (replyPass s₀).Reachable s ∧ s.pc = .undefined := by
  have hlen : (got.take bufSize).length = bufSize := List.length_take_of_le hle
  obtain ⟨d, more, hmore⟩ := List.exists_cons_of_ne_nil
    (List.append_ne_nil_of_right_ne_nil (got.drop bufSize) (List.cons_ne_nil c rest))
  have hsplit : s₀.input = got.take bufSize ++ d :: more := by
    rw [← hmore, ← List.append_assoc, List.take_append_drop, hinput]
  have hfull : (replyPass s₀).Reachable (within s₀ (got.take bufSize) (d :: more)) :=
    reachable_within hpc hsplit (fun b hb => hgot b (List.mem_of_mem_take hb)) hlen.le
  exact ⟨_, hfull.step .byte (byte_of_le hlen.ge), rfl⟩

/-! ### What is shown -/

theorem showsReply_shows (hshown : s.shown = s₀.shown) : ShowsReply s₀ s.shows ↔
    strlen bufSize s.buf < bufSize ∧ cString bufSize s.buf = replyLine s₀.input := by
  constructor
  · intro h
    by_cases hzero : strlen bufSize s.buf < bufSize
    · have heq : s.shows
          = { s with shown := s.shown ++ [cString bufSize s.buf], pc := .prompt } := by
        rw [State.shows, if_pos hzero]
      have hline := h.shown (by rw [heq])
      rw [heq, hshown] at hline
      exact ⟨hzero, (List.cons.inj (List.append_cancel_left hline)).1⟩
    · exact absurd (by rw [State.shows, if_neg hzero]) h.inside
  · rintro ⟨hzero, hline⟩
    rw [State.shows, if_pos hzero, hline, hshown]
    exact ⟨nofun, fun _ => rfl⟩

theorem zero_notMem_replyLine (hgot : Endless got) : 0 ∉ got ++ [c].filter (· ≠ 0) := by
  intro hmem
  rcases List.mem_append.mp hmem with hbody | hend
  · exact hgot.zero_notMem hbody
  · simpa using List.of_mem_filter hend

/-- What is shown at the end of the line is the line exactly if the line fits. -/
theorem passed_iff (hinput : s₀.input = got ++ c :: rest) (hgot : Endless got) (hc : IsEnd c) :
    ShowsReply s₀ (passed s₀ got c rest) ↔ Fits s₀.buf s₀.input := by
  obtain ⟨hbody, hend⟩ := line_of_end rest hgot hc
  have hline : replyLine s₀.input = got ++ [c].filter (· ≠ 0) := by
    rw [replyLine, hinput, hbody, hend]
    rfl
  have hshows : ShowsReply s₀ (passed s₀ got c rest) ↔
      strlen bufSize (s₀.buf.store 0 (got ++ [c])) < bufSize ∧
        cString bufSize (s₀.buf.store 0 (got ++ [c])) = replyLine s₀.input :=
    showsReply_shows rfl
  rw [hshows, hline, Memory.cString_eq_iff (zero_notMem_replyLine hgot), Fits, hinput, hbody, hend]
  by_cases hzero : c = 0
  · -- the zero is not shown, it ends what is
    have hsame : got ++ [c].filter (· ≠ 0) = got := by simp [hzero]
    have hcell : s₀.buf.store 0 (got ++ [c]) got.length = 0 := Memory.store_concat.trans hzero
    rw [hsame]
    simp only [if_pos hzero]
    exact and_iff_left ⟨Memory.load_store_left, hcell⟩
  · have hsame : got ++ [c].filter (· ≠ 0) = got ++ [c] := by
      rw [List.filter_cons, if_pos (decide_eq_true hzero), List.filter_nil]
    have hcell : s₀.buf.store 0 (got ++ [c]) (got.length + 1) = s₀.buf (got.length + 1) :=
      Memory.store_of_le (by rw [List.length_append]; exact (Nat.zero_add _).le)
    have hload : (s₀.buf.store 0 (got ++ [c])).load 0 (got.length + 1) = got ++ [c] := by
      have hstore : (s₀.buf.store 0 (got ++ [c])).load 0 (got ++ [c]).length = got ++ [c] :=
        Memory.load_store
      rwa [List.length_append, List.length_singleton] at hstore
    rw [hsame, List.length_append, List.length_singleton, hload, hcell]
    simp only [if_neg hzero]
    exact and_congr_right fun _ => and_iff_right trivial

/-- A byte that comes without an end before it has room. -/
theorem Fits.lt_of_split {buf : Memory Byte} {input : List Byte} (h : Fits buf input)
    (hinput : input = got ++ c :: rest) (hgot : Endless got) : got.length < bufSize := by
  rcases line_cases input with hend | ⟨body, d, more, heq, hbody, hd⟩
  · obtain ⟨hline, hnone⟩ := line_of_endless hend
    have hle : input.length ≤ bufSize := by
      rw [Fits, hline, hnone] at h
      exact h
    rw [hinput, List.length_append, List.length_cons] at hle
    omega
  · obtain ⟨hline, hsome⟩ := line_of_end more hbody hd
    have hle : got.length ≤ body.length := by
      have hgot := length_le_body (c :: rest) hgot
      rwa [← hinput, heq, hline] at hgot
    have hlt : body.length < bufSize := by
      rw [heq, Fits, hline, hsome] at h
      simp only at h
      split_ifs at h
      · exact h
      · exact Nat.lt_of_succ_lt h.1
    exact hle.trans_lt hlt

/-- **The replies**: a pass stays in the buffer and shows the line exactly if the line fits. -/
theorem shows_iff (hpc : s₀.pc = .reply 0) :
    (∀ s, (replyPass s₀).Reachable s → ShowsReply s₀ s) ↔ Fits s₀.buf s₀.input := by
  constructor
  · intro h
    have hinside : ∀ got c rest, s₀.input = got ++ c :: rest → Endless got →
        got.length < bufSize := by
      intro got c rest hinput hgot
      refine Nat.lt_of_not_le fun hle => ?_
      obtain ⟨s, hs, hundef⟩ := exists_undefined hpc hinput hgot hle
      exact (h s hs).inside hundef
    rcases line_cases s₀.input with hend | ⟨body, c, rest, hinput, hbody, hc⟩
    · obtain ⟨hline, hnone⟩ := line_of_endless hend
      rw [Fits, hline, hnone]
      cases hlast : s₀.input using List.reverseRecOn with
      | nil => exact Nat.zero_le _
      | append_singleton got c =>
        rw [List.length_append]
        exact hinside got c [] hlast fun b hb => hend b (hlast ▸ List.mem_append_left _ hb)
    · have hlt := hinside body c rest hinput hbody
      exact (passed_iff hinput hbody hc).mp (h _ (reachable_passed hpc hinput hbody hc hlt))
  · intro h s hs
    cases Stage.of_reachable hpc hs with
    | within got rest _ _ => exact ⟨nofun, nofun⟩
    | outside got rest c s hinput hgot hle _ =>
      exact absurd hle (Nat.not_le.mpr (h.lt_of_split hinput hgot))
    | passed got rest c hinput hgot hc _ => exact (passed_iff hinput hgot hc).mpr h
    | failed s hfailed => exact ⟨by rw [hfailed]; exact nofun, by rw [hfailed]; exact nofun⟩

/-- An echo of the message fits. -/
theorem fits_echo {buf : Memory Byte} {body rest : List Byte} (hbody : Endless body)
    (hlen : (body ++ [newline]).length < bufSize) :
    Fits (buf.store 0 ((body ++ [newline]) ++ [0])) (body ++ newline :: rest) := by
  obtain ⟨hline, hsome⟩ := line_of_end rest hbody (.inl rfl : IsEnd newline)
  have hzero : buf.store 0 ((body ++ [newline]) ++ [0]) (body ++ [newline]).length = 0 :=
    Memory.store_concat
  rw [List.length_append] at hlen hzero
  rw [Fits, hline, hsome]
  exact ⟨hlen, hzero⟩

/-- A message of two bytes, and its echo. -/
theorem shows_echo : ∃ s₀ : State, s₀.pc = .reply 0 ∧ s₀.input = charBytes "a\n" ∧
    ∀ s, (replyPass s₀).Reachable s → ShowsReply s₀ s := by
  have hecho : Fits (Memory.store (fun _ => 0) 0 ((charBytes "a" ++ [newline]) ++ [0]))
      (charBytes "a" ++ newline :: []) := fits_echo (by decide) (by decide)
  exact ⟨{ start (fun _ => 0) (charBytes "a\n") [] with
    pc := .reply 0
    buf := Memory.store (fun _ => 0) 0 (charBytes "a\n" ++ [0]) }, rfl, rfl,
    (shows_iff rfl).mpr hecho⟩

/-! ### The whole client -/

theorem reachable_step {input stdin : List Byte} (ev : Event)
    (hs : (client input stdin).Reachable s) (h : step s ev = some s') :
    (client input stdin).Reachable s' := hs.step ev h

/-- A line is typed and sent, and its reply is to be received. -/
theorem reachable_reply {input stdin line rest : List Byte} (hs : (client input stdin).Reachable s)
    (hpc : s.pc = .prompt) (hstdin : s.stdin = line ++ rest)
    (hline : Lines.IsLine newline (bufSize - 1) line) (hzero : 0 ∉ line)
    (hquit : line ≠ SERVER_COMMAND) : (client input stdin).Reachable { s with
      pc := .reply 0
      buf := s.buf.store 0 (line ++ [0])
      stdin := rest
      sent := s.sent ++ line } := by
  have hlt : line.length < bufSize := Nat.lt_of_le_pred (by decide) hline.length_le
  have hpos : 0 < line.length := List.length_pos_of_mem hline.mem
  have hne : s.stdin ≠ [] := by
    rw [hstdin]
    exact List.append_ne_nil_of_left_ne_nil (List.ne_nil_of_length_pos hpos) rest
  have htake : Lines.takeLine newline (bufSize - 1) s.stdin = line := by
    rw [hstdin]
    exact Lines.takeLine_append hline
  have hlen : strlen bufSize (s.buf.store 0 (line ++ [0])) = line.length := by
    rw [strlen, Memory.cString_store_of_notMem hlt hzero]
  have htyped : step s .typed = some { s with
      pc := .sending line.length 0
      buf := s.buf.store 0 (line ++ [0])
      stdin := rest } := by
    simp only [step, hpc, if_neg hne, htake, State.types, hlen, State.sends, Nat.sub_zero,
      if_pos hpos]
    rw [hstdin, List.drop_left]
  have hload : ∀ n, n ≤ line.length → (s.buf.store 0 (line ++ [0])).load 0 n = line.take n := by
    intro n hn
    rw [← Memory.take_load hn, Memory.load_store_left]
  refine reachable_step (.taken line.length) (reachable_step .typed hs htyped) ?_
  have hroom : 0 < line.length ∧ line.length ≤ line.length - 0 := ⟨hpos, le_rfl⟩
  have hnot : ¬ (line.length = SERVER_COMMAND.length ∧
      (s.buf.store 0 (line ++ [0])).load 0 SERVER_COMMAND.length = SERVER_COMMAND) := by
    rintro ⟨heq, hcommand⟩
    rw [hload _ heq.ge, ← heq, List.take_length] at hcommand
    exact hquit hcommand
  simp only [step, if_pos hroom, ne_eq, not_true, if_false, State.sends, Nat.zero_add,
    Nat.sub_self, lt_irrefl, State.hasSent, if_neg hnot, hload _ le_rfl, List.take_length]

/-- What a pass can come to, the client can. -/
theorem reachable_of_pass {input stdin : List Byte} (hs₀ : (client input stdin).Reachable s₀)
    (h : (replyPass s₀).Reachable s) : (client input stdin).Reachable s := by
  induction h with
  | init hs =>
    obtain rfl := hs
    exact hs₀
  | @step s s' ev _ hstep ih =>
    cases hpc : s.pc with
    | reply k =>
      simp only [replyPass, hpc] at hstep
      exact reachable_step ev ih hstep
    | welcome k | prompt | sending m k | left | failed | undefined =>
      simp only [replyPass, hpc] at hstep
      cases hstep

/-- What is shown once the line has been received. -/
theorem passed_eq {xs : List Byte} (hne : 0 ∉ xs) (hlt : xs.length < bufSize)
    (hload : (ended s₀ got c rest).buf.load 0 xs.length = xs)
    (hzero : (ended s₀ got c rest).buf xs.length = 0) :
    passed s₀ got c rest
      = { ended s₀ got c rest with shown := s₀.shown ++ [xs], pc := .prompt } := by
  obtain ⟨hlen, htext⟩ := (Memory.cString_eq_iff hne).mpr ⟨hlt, hload, hzero⟩
  rw [passed, State.shows, if_pos hlen, htext]
  rfl

/-- A reply that is shorter than the message: what is left of the message is shown with it. -/
theorem stale_bytes_shown : ∃ s, (client (charBytes "\na\n") (charBytes "xyz\n")).Reachable s ∧
    s.pc = .prompt ∧ s.input = [] ∧ s.shown = [charBytes "a\nz\n"] := by
  have hwelcome : (client (charBytes "\na\n") (charBytes "xyz\n")).Reachable
      { start (fun _ => 0) (charBytes "a\n") (charBytes "xyz\n") with
        pc := .prompt
        buf := (start (fun _ => 0) [] []).buf.store 0 [newline] } :=
    reachable_step .byte (.init ⟨fun _ => 0, rfl⟩) rfl
  have hsent := reachable_reply hwelcome rfl (show _ = charBytes "xyz\n" ++ [] from rfl)
    (Lines.isLine_append (by decide : newline ∉ charBytes "xyz") (by decide)) (by decide)
    (by decide)
  have hline := reachable_of_pass hsent (reachable_passed rfl
    (show charBytes "a\n" = charBytes "a" ++ newline :: [] from rfl) (by decide) (.inl rfl)
    (by decide))
  rw [passed_eq (show 0 ∉ charBytes "a\nz\n" by decide) (by decide) (by decide)
    (by decide)] at hline
  exact ⟨_, hline, rfl, rfl, rfl⟩

end Pass

end LineClient
