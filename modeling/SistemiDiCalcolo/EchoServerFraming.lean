/-
The framing of the echo server of Lab08/01.

A pass of the loop of `recv` takes as many bytes as there are before the first end that the
buffer held when the pass began, whatever comes.  So the passes find the lines only if the
lines have the lengths that the buffer asks for.

* `Framed` — the passes have found the lines;
* `Fits` — the lengths that the buffer asks for: each line one byte shorter than the last;
* `framed_iff` — the passes find the lines exactly if they fit.
-/
import SistemiDiCalcolo.EchoServer
import SistemiDiCalcolo.Lines

open AccessLog (Byte)
open Lines (IsLine)

namespace EchoServer

/-- What the pass under way has received. -/
def Handler.got (s : Handler) : List Byte :=
  match s.pc with
  | .receiving recv_bytes => s.buf.load 0 recv_bytes
  | _ => []

/-- The passes have taken one line each and stored it, and the pass under way is not beyond
the end of the next one.  The client sends the lines and then `tail`. -/
structure Framed (lines : List (List Byte)) (tail : List Byte) (s : Handler) : Prop where
  commands : s.commands <+: lines
  stored : s.pc ≠ .failed →
    s.commands.flatten ++ (s.got ++ s.input) = lines.flatten ++ tail
  unfinished : newline ∉ s.got

/-- The first line has `t` bytes, and each other one byte less than the one before, up to the
quit command; if that does not come, `tail` is shorter than the next line would have to be. -/
def Fits (tail : List Byte) : ℕ → List (List Byte) → Prop
  | t, [] => tail.length < t
  | t, line :: lines => line.length = t ∧ (line = SERVER_COMMAND ∨ Fits tail (t - 1) lines)

/-! ### One pass -/

/-- A pass is about to begin, and will stop after `t` bytes. -/
structure Begins (s : Handler) (commands : List (List Byte)) (t : ℕ) (rest : List Byte) :
    Prop where
  pc : s.pc = .pass
  commands : s.commands = commands
  input : s.input = rest
  firstEnd : FirstEnd s.buf t

/-- A pass has received `got` and will stop after `t` bytes. -/
structure Receiving (s : Handler) (commands : List (List Byte)) (t : ℕ)
    (got rest : List Byte) : Prop where
  pc : s.pc = .receiving got.length
  commands : s.commands = commands
  input : s.input = rest
  load : s.buf.load 0 got.length = got
  lt : got.length < t
  isEnd : IsEnd (s.buf t)
  not_isEnd : ∀ i, got.length ≤ i → i < t → ¬ IsEnd (s.buf i)

/-- A pass has received `command`. -/
structure Received (s : Handler) (commands : List (List Byte)) (command rest : List Byte) :
    Prop where
  left : command = SERVER_COMMAND → s.pc = .left
  sending : command ≠ SERVER_COMMAND → command ≠ [] → s.pc = .sending command.length 0
  commands : s.commands = commands ++ [command]
  input : s.input = rest
  load : s.buf.load 0 command.length = command

/-- The message is about to be sent back, and the next pass will stop after `t` bytes. -/
structure Sending (s : Handler) (commands : List (List Byte)) (t : ℕ) (rest : List Byte) :
    Prop where
  pc : ∃ r, 0 < r ∧ s.pc = .sending r 0
  commands : s.commands = commands
  input : s.input = rest
  firstEnd : FirstEnd s.buf t

variable {s s' : Handler} {commands : List (List Byte)} {t n : ℕ} {got rest line : List Byte}
  {c : Byte}

/-- The end of the loop of `recv`, wherever it stops. -/
theorem received_spec {command : List Byte} (hload : s.buf.load 0 command.length = command) :
    Received (s.received command.length) s.commands command s.input := by
  by_cases hquit : command = SERVER_COMMAND
  · rw [received_eq_left (hload.trans hquit)]
    refine ⟨fun _ => rfl, fun hne => absurd hquit hne, ?_, rfl, hload⟩
    rw [hload]
  · rw [received_eq_sends (by rwa [hload])]
    refine ⟨fun heq => absurd heq hquit, fun _ hne => ?_, ?_, rfl, hload⟩
    · exact if_pos (List.length_pos_iff.mpr hne)
    · show s.commands ++ [s.buf.load 0 command.length] = _
      rw [hload]

theorem Begins.receiving (h : Begins s commands t rest) (ht : 0 < t) :
    ∃ s', step s .begin = some s' ∧ Receiving s' commands t [] rest := by
  refine ⟨s.receives 0, by simp only [step, h.pc], ?_⟩
  rw [receives_of_not_isEnd (h.firstEnd.not_isEnd 0 ht)]
  exact ⟨rfl, h.commands, h.input, rfl, ht, h.firstEnd.isEnd,
    fun i _ hi => h.firstEnd.not_isEnd i hi⟩

/-- A pass that stops before it has received anything. -/
theorem Begins.received (h : Begins s commands 0 rest) :
    ∃ s', step s .begin = some s' ∧ Received s' commands [] rest := by
  refine ⟨s.receives 0, by simp only [step, h.pc], ?_⟩
  rw [receives_of_isEnd h.firstEnd.isEnd, ← h.commands, ← h.input]
  have hload : s.buf.load 0 ([] : List Byte).length = [] := rfl
  exact received_spec hload

/-- The buffer after one more byte. -/
theorem Receiving.load_store (h : Receiving s commands t got rest) :
    (s.buf.store got.length [c]).load 0 (got ++ [c]).length = got ++ [c] := by
  rw [List.length_append, Memory.load_store_append (Nat.zero_add _) rfl, h.load]

theorem Receiving.byte (h : Receiving s commands t got (c :: rest)) : step s .byte
    = some ({ s with input := rest, buf := s.buf.store got.length [c] }.receives
      (got ++ [c]).length) := by
  rw [List.length_append]
  simp only [step, h.pc, h.input, List.length_singleton]

/-- A byte before the pass stops. -/
theorem Receiving.more (h : Receiving s commands t got (c :: rest))
    (hlt : (got ++ [c]).length < t) :
    ∃ s', step s .byte = some s' ∧ Receiving s' commands t (got ++ [c]) rest := by
  have hlater : ∀ i, (got ++ [c]).length ≤ i → s.buf.store got.length [c] i = s.buf i := by
    intro i hi
    rw [List.length_append] at hi
    exact Memory.store_of_le hi
  have hahead : ∀ i, (got ++ [c]).length ≤ i → i < t →
      ¬ IsEnd (s.buf.store got.length [c] i) := by
    intro i hi hit
    rw [hlater i hi]
    rw [List.length_append] at hi
    exact h.not_isEnd i (Nat.le_of_succ_le hi) hit
  refine ⟨_, h.byte, ?_⟩
  rw [receives_of_not_isEnd (hahead _ le_rfl hlt)]
  refine ⟨rfl, h.commands, rfl, h.load_store, hlt, ?_, hahead⟩
  show IsEnd (s.buf.store got.length [c] t)
  rw [hlater t hlt.le]
  exact h.isEnd

/-- The byte at which the pass stops, whatever it is. -/
theorem Receiving.last (h : Receiving s commands t got (c :: rest))
    (heq : (got ++ [c]).length = t) :
    ∃ s', step s .byte = some s' ∧ Received s' commands (got ++ [c]) rest := by
  refine ⟨_, h.byte, ?_⟩
  rw [receives_of_isEnd, ← h.commands]
  · exact received_spec h.load_store
  · rw [heq]
    show IsEnd (s.buf.store got.length [c] t)
    rw [Memory.store_of_le (by rw [← heq, List.length_append])]
    exact h.isEnd

/-- A line in the buffer: its end is the first. -/
theorem firstEnd_of_line {buf : Memory Byte} (hline : IsLine newline n line) (hzero : 0 ∉ line)
    (hload : buf.load 0 line.length = line) : FirstEnd buf (line.length - 1) := by
  obtain ⟨body, rfl, hbody⟩ := hline.exists_body
  have hcell : ∀ i (hi : i < (body ++ [newline]).length), buf i = (body ++ [newline])[i] := by
    intro i hi
    rw [← Memory.eq_getElem_of_load hload hi, Nat.zero_add]
  have hlen : (body ++ [newline]).length - 1 = body.length := by
    rw [List.length_append, List.length_singleton, Nat.add_sub_cancel]
  rw [hlen]
  constructor
  · left
    rw [hcell _ (by simp)]
    simp
  · intro i hi
    have hi' : i < (body ++ [newline]).length := by
      rw [List.length_append]
      omega
    rw [hcell i hi', List.getElem_append_left hi]
    rintro (hnewline | hnull)
    · exact hbody (hnewline ▸ List.getElem_mem hi)
    · exact hzero (List.mem_append_left _ (hnull ▸ List.getElem_mem hi))

/-- A pass that has received a line. -/
theorem Received.sends (h : Received s commands line rest) (hline : IsLine newline n line)
    (hzero : 0 ∉ line) (hquit : line ≠ SERVER_COMMAND) :
    Sending s (commands ++ [line]) (line.length - 1) rest := by
  have hne : line ≠ [] := List.ne_nil_of_mem hline.mem
  exact ⟨⟨_, List.length_pos_iff.mpr hne, h.sending hquit hne⟩, h.commands, h.input,
    firstEnd_of_line hline hzero h.load⟩

/-- The message is sent in one piece. -/
theorem Sending.taken (h : Sending s commands t rest) :
    ∃ n s', step s (.taken n) = some s' ∧ Begins s' commands t rest := by
  obtain ⟨r, hr, hpc⟩ := h.pc
  refine ⟨r, _, by simp only [step, hpc]; rw [if_pos ⟨hr, le_rfl⟩, if_neg (not_not.mpr rfl)], ?_⟩
  refine ⟨if_neg ?_, h.commands, h.input, h.firstEnd⟩
  omega

/-! ### The passes find lines that fit -/

/-- Where the echo loop is, on lines that fit. -/
inductive Stage (lines : List (List Byte)) (tail : List Byte) (s : Handler) : Prop
  | begins (done rest : List (List Byte)) (t : ℕ) : lines = done ++ rest → Fits tail t rest →
      Begins s done t (rest.flatten ++ tail) → Stage lines tail s
  | receiving (done rest : List (List Byte)) (t : ℕ) (got ahead : List Byte) :
      lines = done ++ rest → Fits tail t rest → got ++ ahead = rest.flatten ++ tail →
      Receiving s done t got ahead → Stage lines tail s
  | sending (done rest : List (List Byte)) (t : ℕ) : lines = done ++ rest → Fits tail t rest →
      Sending s done t (rest.flatten ++ tail) → Stage lines tail s
  | left (done rest : List (List Byte)) : lines = done ++ rest → s.pc = .left →
      s.commands = done → s.input = rest.flatten ++ tail → Stage lines tail s
  | failed (done rest : List (List Byte)) : lines = done ++ rest → s.pc = .failed →
      s.commands = done → Stage lines tail s

section Stage

variable {lines done : List (List Byte)} {tail ahead : List Byte} {rest : List (List Byte)}

theorem Fits.pos (h : Fits tail t rest) (hlines : ∀ line ∈ rest, line ≠ []) : 0 < t := by
  cases rest with
  | nil => exact Nat.zero_lt_of_lt h
  | cons line rest =>
    rw [← h.1]
    exact List.length_pos_iff.mpr (hlines line List.mem_cons_self)

/-- A pass is over, on lines that fit: it has received the next line. -/
theorem Stage.of_received {command : List Byte} (hlines : ∀ line ∈ lines, IsLine newline n line)
    (hzero : ∀ line ∈ lines, 0 ∉ line) (hsplit : lines = done ++ rest) (hfits : Fits tail t rest)
    (hstream : command ++ ahead = rest.flatten ++ tail) (hlen : command.length = t)
    (h : Received s done command ahead) : Stage lines tail s := by
  cases rest with
  | nil =>
    -- what comes after the lines is too short for a pass
    have htail : command.length ≤ tail.length := by
      have hle := congrArg List.length hstream
      rw [List.length_append] at hle
      exact (Nat.le_add_right _ _).trans hle.le
    rw [hlen] at htail
    exact absurd hfits (Nat.not_lt.mpr htail)
  | cons line rest =>
    obtain ⟨hlength, hnext⟩ := hfits
    rw [List.flatten_cons, List.append_assoc] at hstream
    obtain ⟨rfl, rfl⟩ := List.append_inj hstream (hlen.trans hlength.symm)
    have hsplit' : lines = (done ++ [command]) ++ rest := by
      rw [hsplit, List.append_assoc]
      rfl
    have hmem : command ∈ lines := hsplit ▸ List.mem_append_right done List.mem_cons_self
    by_cases hquit : command = SERVER_COMMAND
    · exact .left _ rest hsplit' (h.left hquit) h.commands h.input
    · refine .sending _ rest (t - 1) hsplit' (hnext.resolve_left hquit) ?_
      rw [← hlen]
      exact h.sends (hlines _ hmem) (hzero _ hmem) hquit

/-- A step of the echo loop on lines that fit. -/
theorem Stage.step {ev : Event} (hlines : ∀ line ∈ lines, IsLine newline n line)
    (hzero : ∀ line ∈ lines, 0 ∉ line) (hs : Stage lines tail s)
    (h : EchoServer.step s ev = some s') : Stage lines tail s' := by
  cases hs with
  | begins done rest t hsplit hfits hs =>
    have hpos : 0 < t := hfits.pos fun line hmem => List.ne_nil_of_mem
      (hlines line (hsplit ▸ List.mem_append_right done hmem)).mem
    obtain ⟨s'', hbegin, hrec⟩ := hs.receiving hpos
    cases ev with
    | begin =>
      cases hbegin.symm.trans h
      exact .receiving done rest t [] _ hsplit hfits rfl hrec
    | interrupted | error | closed | byte | taken n =>
      simp only [EchoServer.step, hs.pc] at h
      cases h
  | receiving done rest t got ahead hsplit hfits hstream hs =>
    cases ev with
    | interrupted =>
      simp only [EchoServer.step, hs.pc] at h
      cases h
      rw [receives_of_not_isEnd (hs.not_isEnd _ le_rfl hs.lt)]
      exact .receiving done rest t got ahead hsplit hfits hstream { hs with pc := rfl }
    | error =>
      simp only [EchoServer.step, hs.pc] at h
      cases h
      exact .failed done rest hsplit rfl hs.commands
    | closed =>
      simp only [EchoServer.step, hs.pc] at h
      split_ifs at h
      cases h
      exact .failed done rest hsplit rfl hs.commands
    | byte =>
      cases ahead with
      | nil =>
        simp only [EchoServer.step, hs.pc, hs.input] at h
        cases h
      | cons c ahead =>
        rcases Nat.lt_or_ge (got ++ [c]).length t with hlt | hge
        · obtain ⟨s'', hbyte, hmore⟩ := hs.more hlt
          cases hbyte.symm.trans h
          refine .receiving done rest t (got ++ [c]) ahead hsplit hfits ?_ hmore
          rw [← hstream, List.append_assoc]
          rfl
        · have hlen : (got ++ [c]).length = t := by
            refine le_antisymm ?_ hge
            rw [List.length_append]
            exact hs.lt
          obtain ⟨s'', hbyte, hlast⟩ := hs.last hlen
          cases hbyte.symm.trans h
          rw [← List.singleton_append, ← List.append_assoc] at hstream
          exact .of_received hlines hzero hsplit hfits hstream hlen hlast
    | taken n | begin =>
      simp only [EchoServer.step, hs.pc] at h
      cases h
  | sending done rest t hsplit hfits hs =>
    obtain ⟨r, hr, hpc⟩ := hs.pc
    cases ev with
    | interrupted =>
      simp only [EchoServer.step, hpc] at h
      cases h
      refine .sending done rest t hsplit hfits { hs with pc := ⟨r, hr, if_pos ?_⟩ }
      exact hr
    | error =>
      simp only [EchoServer.step, hpc] at h
      cases h
      exact .failed done rest hsplit rfl hs.commands
    | taken n =>
      simp only [EchoServer.step, hpc] at h
      split_ifs at h with hn hsize
      · cases h
        exact .failed done rest hsplit rfl hs.commands
      · cases h
        obtain rfl := not_not.mp hsize
        refine .begins done rest t hsplit hfits ⟨if_neg ?_, hs.commands, hs.input, hs.firstEnd⟩
        omega
    | closed | byte | begin =>
      simp only [EchoServer.step, hpc] at h
      cases h
  | left done rest hsplit hpc hcommands hinput =>
    simp only [EchoServer.step, hpc] at h
    cases h
  | failed done rest hsplit hpc hcommands =>
    simp only [EchoServer.step, hpc] at h
    cases h

/-- What it takes for the passes to have found the lines. -/
theorem Framed.of_split (hsplit : lines = done ++ rest) (hcommands : s.commands = done)
    (hinput : s.pc ≠ .failed → s.got ++ s.input = rest.flatten ++ tail)
    (hgot : newline ∉ s.got) : Framed lines tail s := by
  refine ⟨?_, fun hne => ?_, hgot⟩
  · rw [hcommands, hsplit]
    exact List.prefix_append done rest
  · rw [hcommands, hinput hne, hsplit, List.flatten_append, List.append_assoc]

/-- A part of what is to come that is shorter than the next line has no newline. -/
theorem Fits.newline_notMem (h : Fits tail t rest)
    (hlines : ∀ line ∈ rest, IsLine newline n line) (htail : newline ∉ tail)
    (hstream : got ++ ahead = rest.flatten ++ tail) (hlt : got.length < t) : newline ∉ got := by
  intro hmem
  cases rest with
  | nil =>
    rw [List.flatten_nil, List.nil_append] at hstream
    exact htail (hstream ▸ List.mem_append_left ahead hmem)
  | cons line rest =>
    rw [List.flatten_cons, List.append_assoc] at hstream
    have hlt' : got.length < line.length := hlt.trans_eq h.1.symm
    have hprefix : got <+: line := List.prefix_of_prefix_length_le ⟨ahead, hstream⟩
      (List.prefix_append line _) hlt'.le
    rw [(hlines line List.mem_cons_self).unbroken.eq_of_prefix hprefix hmem] at hlt'
    exact Nat.lt_irrefl _ hlt'

theorem Stage.framed (hlines : ∀ line ∈ lines, IsLine newline n line) (htail : newline ∉ tail)
    (hs : Stage lines tail s) : Framed lines tail s := by
  cases hs with
  | begins done rest t hsplit hfits hs =>
    have hgot : s.got = [] := by rw [Handler.got, hs.pc]
    refine .of_split hsplit hs.commands (fun _ => ?_) (hgot ▸ List.not_mem_nil)
    rw [hgot, hs.input, List.nil_append]
  | receiving done rest t got ahead hsplit hfits hstream hs =>
    have hgot : s.got = got := by
      rw [Handler.got, hs.pc]
      exact hs.load
    refine .of_split hsplit hs.commands (fun _ => ?_) ?_
    · rw [hgot, hs.input, hstream]
    · rw [hgot]
      exact hfits.newline_notMem
        (fun line hline => hlines line (hsplit ▸ List.mem_append_right done hline)) htail hstream
        hs.lt
  | sending done rest t hsplit hfits hs =>
    obtain ⟨r, hr, hpc⟩ := hs.pc
    have hgot : s.got = [] := by rw [Handler.got, hpc]
    refine .of_split hsplit hs.commands (fun _ => ?_) (hgot ▸ List.not_mem_nil)
    rw [hgot, hs.input, List.nil_append]
  | left done rest hsplit hpc hcommands hinput =>
    have hgot : s.got = [] := by rw [Handler.got, hpc]
    refine .of_split hsplit hcommands (fun _ => ?_) (hgot ▸ List.not_mem_nil)
    rw [hgot, hinput, List.nil_append]
  | failed done rest hsplit hpc hcommands =>
    have hgot : s.got = [] := by rw [Handler.got, hpc]
    exact .of_split hsplit hcommands (fun hne => absurd hpc hne) (hgot ▸ List.not_mem_nil)

/-- **The passes find lines that fit.** -/
theorem framed_of_fits (hlines : ∀ line ∈ lines, IsLine newline n line)
    (hzero : ∀ line ∈ lines, 0 ∉ line) (htail : newline ∉ tail)
    (hfits : Fits tail (welcome.length - 1) lines)
    (h : (echoLoop (lines.flatten ++ tail)).Reachable s) : Framed lines tail s := by
  refine Stage.framed hlines htail (h.invariant ?_ fun s ev s' _ hs hstep =>
    hs.step hlines hzero hstep)
  rintro s ⟨buf, rfl⟩
  exact .begins [] lines _ rfl hfits ⟨rfl, rfl, rfl, firstEnd_welcomed buf⟩

end Stage

/-! ### The passes miss a line that does not fit -/

section Runs

variable {input xs : List Byte}

theorem Receiving.bytes (hr : (echoLoop input).Reachable s)
    (h : Receiving s commands t got (xs ++ rest)) (hlt : (got ++ xs).length < t) :
    ∃ s', (echoLoop input).Reachable s' ∧ Receiving s' commands t (got ++ xs) rest := by
  induction xs generalizing s got with
  | nil =>
    rw [List.append_nil]
    exact ⟨s, hr, h⟩
  | cons x xs ih =>
    have hassoc : got ++ x :: xs = (got ++ [x]) ++ xs := by
      rw [List.append_assoc]
      rfl
    rw [hassoc] at hlt ⊢
    have hle : (got ++ [x]).length ≤ ((got ++ [x]) ++ xs).length :=
      (List.prefix_append _ _).length_le
    obtain ⟨s', hstep, hmore⟩ := h.more (hle.trans_lt hlt)
    exact ih (hr.step .byte hstep) hmore hlt

/-- A pass is under way: it has received fewer bytes than it will. -/
theorem Begins.bytes (hr : (echoLoop input).Reachable s)
    (h : Begins s commands t (xs ++ rest)) (hlt : xs.length < t) :
    ∃ s', (echoLoop input).Reachable s' ∧ Receiving s' commands t xs rest := by
  obtain ⟨s', hstep, hrec⟩ := h.receiving (Nat.zero_lt_of_lt hlt)
  exact hrec.bytes (hr.step .begin hstep) hlt

/-- A pass takes as many bytes as there are before the first end. -/
theorem Begins.whole (hr : (echoLoop input).Reachable s)
    (h : Begins s commands t (xs ++ rest)) (hlen : xs.length = t) :
    ∃ s', (echoLoop input).Reachable s' ∧ Received s' commands xs rest := by
  rcases List.eq_nil_or_concat xs with rfl | ⟨ys, y, rfl⟩
  · obtain rfl : 0 = t := hlen
    obtain ⟨s', hstep, hrec⟩ := h.received
    exact ⟨s', hr.step .begin hstep, hrec⟩
  · rw [List.concat_eq_append, List.append_assoc] at h
    rw [List.concat_eq_append] at hlen ⊢
    have hlt : ys.length < t := by
      rw [← hlen, List.length_append]
      exact Nat.lt_succ_self _
    obtain ⟨u, hu, hrec⟩ := h.bytes hr hlt
    obtain ⟨s', hstep, hlast⟩ := hrec.last hlen
    exact ⟨s', hu.step .byte hstep, hlast⟩

variable {lines done : List (List Byte)} {tail : List Byte}

/-- If the passes find the lines, then what is to come fits. -/
theorem Begins.fits (hframed : ∀ s, (echoLoop input).Reachable s → Framed lines tail s)
    {rest : List (List Byte)} (hlines : ∀ line ∈ rest, IsLine newline n line)
    (hzero : ∀ line ∈ rest, 0 ∉ line) (hsplit : lines = done ++ rest)
    (hr : (echoLoop input).Reachable s) (h : Begins s done t (rest.flatten ++ tail)) :
    Fits tail t rest := by
  induction rest generalizing s done t with
  | nil =>
    by_contra hge
    have hle : t ≤ tail.length := Nat.not_lt.mp hge
    rw [List.flatten_nil, List.nil_append, ← List.take_append_drop t tail] at h
    obtain ⟨s', hr', hrec⟩ := h.whole hr (List.length_take_of_le hle)
    -- a command too many
    have hprefix := (hframed s' hr').commands
    rw [hrec.commands, hsplit] at hprefix
    have hlength := hprefix.length_le
    simp at hlength
  | cons line rest ih =>
    have hline := hlines line List.mem_cons_self
    rw [List.flatten_cons, List.append_assoc] at h
    rcases Nat.lt_trichotomy line.length t with hlt | heq | hgt
    · -- the pass goes on after the newline
      obtain ⟨s', hr', hrec⟩ := h.bytes hr hlt
      have hgot : s'.got = line := by
        rw [Handler.got, hrec.pc]
        exact hrec.load
      exact absurd (hgot ▸ hline.mem) (hframed s' hr').unfinished
    · refine ⟨heq, ?_⟩
      by_cases hquit : line = SERVER_COMMAND
      · exact .inl hquit
      · obtain ⟨s', hr', hrec⟩ := h.whole hr heq
        obtain ⟨k, u, hstep, hnext⟩ :=
          (hrec.sends hline (hzero line List.mem_cons_self) hquit).taken
        rw [heq] at hnext
        refine .inr (ih (fun l hl => hlines l (List.mem_cons_of_mem line hl))
          (fun l hl => hzero l (List.mem_cons_of_mem line hl)) ?_ (hr'.step _ hstep) hnext)
        rw [hsplit, List.append_assoc]
        rfl
    · -- the pass stops within the line
      rw [← List.take_append_drop t line, List.append_assoc] at h
      obtain ⟨s', hr', hrec⟩ := h.whole hr (List.length_take_of_le hgt.le)
      have hprefix := (hframed s' hr').commands
      rw [hrec.commands, hsplit, List.prefix_append_right_inj, List.cons_prefix_cons] at hprefix
      rw [← hprefix.1, List.length_take] at hgt
      omega

end Runs

/-- **The framing**: the passes of the loop of `recv` find the lines of the client exactly if
these have the lengths that the buffer asks for. -/
theorem framed_iff {lines : List (List Byte)} {tail : List Byte}
    (hlines : ∀ line ∈ lines, IsLine newline 1023 line) (hzero : ∀ line ∈ lines, 0 ∉ line)
    (htail : newline ∉ tail) :
    (∀ s, (echoLoop (lines.flatten ++ tail)).Reachable s → Framed lines tail s) ↔
      Fits tail (welcome.length - 1) lines := by
  refine ⟨fun h => ?_, fun hfits s hs => framed_of_fits hlines hzero htail hfits hs⟩
  exact Begins.fits h hlines hzero rfl (.init ⟨fun _ => 0, rfl⟩)
    ⟨rfl, rfl, rfl, firstEnd_welcomed _⟩

/-- The quit command comes first: the server has received it and waits for more. -/
theorem quit_missed : ∃ s, (echoLoop ([SERVER_COMMAND].flatten ++ [])).Reachable s ∧
    s.pc = .receiving 5 ∧ s.got = SERVER_COMMAND ∧ ¬ Framed [SERVER_COMMAND] [] s := by
  have hlt : SERVER_COMMAND.length < welcome.length - 1 := by
    rw [length_welcome]
    decide
  have hbegins : Begins (start (fun _ => 0) .pass ([SERVER_COMMAND].flatten ++ [])) []
      (welcome.length - 1) (SERVER_COMMAND ++ []) := ⟨rfl, rfl, rfl, firstEnd_welcomed _⟩
  obtain ⟨s, hr, hrec⟩ := hbegins.bytes (.init ⟨_, rfl⟩) hlt
  have hgot : s.got = SERVER_COMMAND := by
    rw [Handler.got, hrec.pc]
    exact hrec.load
  refine ⟨s, hr, hrec.pc, hgot, fun hframed => hframed.unfinished ?_⟩
  rw [hgot]
  decide

/-- One line of 98 bytes fits, the quit command alone does not. -/
theorem one_line_framed :
    (∀ s, (echoLoop ([List.replicate 97 120 ++ [newline]].flatten ++ [])).Reachable s →
      Framed [List.replicate 97 120 ++ [newline]] [] s) ∧
    ¬ ∀ s, (echoLoop ([SERVER_COMMAND].flatten ++ [])).Reachable s →
      Framed [SERVER_COMMAND] [] s := by
  have hbody : newline ∉ List.replicate 97 (120 : Byte) := by decide
  constructor
  · refine (framed_iff (List.forall_mem_singleton.mpr ?_) (List.forall_mem_singleton.mpr ?_)
      List.not_mem_nil).mpr ⟨?_, .inr ?_⟩
    · exact Lines.isLine_append hbody (by decide)
    · decide
    · rw [length_welcome]
      decide
    · show 0 < welcome.length - 1 - 1
      rw [length_welcome]
      decide
  · intro h
    have hquit : IsLine newline 1023 SERVER_COMMAND :=
      Lines.isLine_append (by decide : newline ∉ charBytes "QUIT") (by decide)
    obtain ⟨hlength, -⟩ := (framed_iff (List.forall_mem_singleton.mpr hquit)
      (List.forall_mem_singleton.mpr (by decide)) List.not_mem_nil).mp h
    rw [length_welcome] at hlength
    exact absurd hlength (by decide)

end EchoServer
