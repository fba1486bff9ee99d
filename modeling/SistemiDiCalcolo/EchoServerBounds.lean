/-
The bounds of the buffer of the echo server of Lab08/01.

The loop of `recv` has no bound, but it stops at an end that the buffer held when the pass
began: first the newline of the welcome message, then one that an earlier pass has left where
it stopped, or before.

* `InBounds` — a pass stays below the length of the welcome message, and receives at most as
  many bytes as the one before;
* `Guarded` — there is an end that the passes under way and to come do not get past;
* `inBounds` — every reachable state of the echo loop is in bounds, whatever is sent.
-/
import SistemiDiCalcolo.EchoServer

open AccessLog (Byte)

namespace EchoServer

/-- The indexes of the loop of `recv` are below the length of the welcome message: `recv_bytes`,
at which it looks and stores, and the number of bytes received, at which it stops; and these
numbers never grow. -/
structure InBounds (s : Handler) : Prop where
  receiving : ∀ recv_bytes, s.pc = .receiving recv_bytes → recv_bytes < welcome.length
  commands : ∀ command ∈ s.commands, command.length < welcome.length
  descending : s.commands.Pairwise fun command next => next.length ≤ command.length

/-- At `t` there is an end, not after that of any pass so far. -/
structure Guarded (t : ℕ) (s : Handler) : Prop where
  lt : t < welcome.length
  isEnd : IsEnd (s.buf t)
  le : ∀ command ∈ s.commands, t ≤ command.length
  commands : ∀ command ∈ s.commands, command.length < welcome.length
  descending : s.commands.Pairwise fun command next => next.length ≤ command.length

/-- The pass under way is before the end that guards it. -/
def Inv (s : Handler) : Prop :=
  ∃ t, Guarded t s ∧ ∀ recv_bytes, s.pc = .receiving recv_bytes → recv_bytes < t

variable {s s' : Handler} {t r : ℕ} {pc : Pc}

theorem Inv.bounds (h : Inv s) : InBounds s := by
  obtain ⟨t, hs, hlt⟩ := h
  exact ⟨fun r hpc => (hlt r hpc).trans hs.lt, hs.commands, hs.descending⟩

theorem Guarded.of_pc (hs : Guarded t s) {sent : List Byte} :
    Guarded t { s with pc := pc, sent := sent } :=
  ⟨hs.lt, hs.isEnd, hs.le, hs.commands, hs.descending⟩

theorem Guarded.inv (hs : Guarded t s) (hpc : ∀ r, s.pc ≠ .receiving r) : Inv s :=
  ⟨t, hs, fun r h => absurd h (hpc r)⟩

theorem sends_pc_ne {k j : ℕ} : (s.sends r k).pc ≠ .receiving j := by
  show (if 0 < r - k then Pc.sending r k else .pass) ≠ .receiving j
  split_ifs <;> exact nofun

theorem welcomes_pc_ne {k j : ℕ} : (s.welcomes k).pc ≠ .receiving j := by
  show (if 0 < welcome.length - k then Pc.welcoming k else .pass) ≠ .receiving j
  split_ifs <;> exact nofun

/-- What a step can do: begin a pass, go on with it, or something that neither touches the buffer
nor receives. -/
inductive LoopStep (s : Handler) : Handler → Prop
  | begin : s.pc = .pass → LoopStep s (s.receives 0)
  | again (r : ℕ) : s.pc = .receiving r → LoopStep s (s.receives r)
  | byte (r : ℕ) (c : Byte) (input : List Byte) : s.pc = .receiving r →
      LoopStep s ({ s with input := input, buf := s.buf.store r [c] }.receives (r + 1))
  | outside (pc : Pc) (sent : List Byte) : (∀ r, pc ≠ .receiving r) →
      LoopStep s { s with pc := pc, sent := sent }

theorem step_cases {ev : Event} (h : step s ev = some s') : LoopStep s s' := by
  cases hpc : s.pc with
  | pass =>
    cases ev with
    | begin =>
      simp only [step, hpc] at h
      cases h
      exact .begin hpc
    | interrupted | error | closed | byte | taken n =>
      simp only [step, hpc] at h
      cases h
  | receiving r =>
    cases ev with
    | interrupted =>
      simp only [step, hpc] at h
      cases h
      exact .again r hpc
    | byte =>
      cases hinput : s.input with
      | nil =>
        simp only [step, hpc, hinput] at h
        cases h
      | cons c input =>
        simp only [step, hpc, hinput] at h
        cases h
        exact .byte r c input hpc
    | error =>
      simp only [step, hpc] at h
      cases h
      exact .outside _ _ nofun
    | closed =>
      simp only [step, hpc] at h
      split_ifs at h
      cases h
      exact .outside _ _ nofun
    | taken n | begin =>
      simp only [step, hpc] at h
      cases h
  | welcoming k =>
    cases ev with
    | interrupted =>
      simp only [step, hpc] at h
      cases h
      exact .outside _ _ fun _ => welcomes_pc_ne (s := s)
    | error =>
      simp only [step, hpc] at h
      cases h
      exact .outside _ _ nofun
    | taken n =>
      simp only [step, hpc] at h
      split_ifs at h
      · cases h
        exact .outside _ _ nofun
      · cases h
        exact .outside _ _ fun _ => welcomes_pc_ne (s := s)
    | closed | byte | begin =>
      simp only [step, hpc] at h
      cases h
  | sending r k =>
    cases ev with
    | interrupted =>
      simp only [step, hpc] at h
      cases h
      exact .outside _ _ fun _ => sends_pc_ne (s := s)
    | error =>
      simp only [step, hpc] at h
      cases h
      exact .outside _ _ nofun
    | taken n =>
      simp only [step, hpc] at h
      split_ifs at h
      · cases h
        exact .outside _ _ nofun
      · cases h
        exact .outside _ _ fun _ => sends_pc_ne (s := s)
    | closed | byte | begin =>
      simp only [step, hpc] at h
      cases h
  | left | failed =>
    simp only [step, hpc] at h
    cases h

/-- The loop of `recv` stops at `r`, which is the guard of the next passes. -/
theorem Guarded.received (hs : Guarded t s) (hr : r ≤ t) (hend : IsEnd (s.buf r)) :
    Inv (s.received r) := by
  have hlen : (s.buf.load 0 r).length = r := Memory.length_load
  have hguarded : Guarded r { s with commands := s.commands ++ [s.buf.load 0 r] } := by
    refine ⟨hr.trans_lt hs.lt, hend, ?_, ?_, ?_⟩
    · intro command hmem
      rcases List.mem_append.mp hmem with hold | hnew
      · exact hr.trans (hs.le command hold)
      · rw [List.mem_singleton.mp hnew, hlen]
    · intro command hmem
      rcases List.mem_append.mp hmem with hold | hnew
      · exact hs.commands command hold
      · rw [List.mem_singleton.mp hnew, hlen]
        exact hr.trans_lt hs.lt
    · refine List.pairwise_append.mpr ⟨hs.descending, List.pairwise_singleton _ _, ?_⟩
      intro command hold next hnew
      rw [List.mem_singleton.mp hnew, hlen]
      exact hr.trans (hs.le command hold)
  rw [Handler.received]
  split_ifs
  · exact hguarded.of_pc.inv (fun _ h => Pc.noConfusion h)
  · exact hguarded.of_pc.inv fun _ => sends_pc_ne

/-- The test of the loop: the end that guards it stops it at the latest. -/
theorem Guarded.receives (hs : Guarded t s) (hr : r ≤ t) : Inv (s.receives r) := by
  by_cases hend : IsEnd (s.buf r)
  · -- the end at `r` takes the place of the guard
    rw [receives_of_isEnd hend]
    exact hs.received hr hend
  · rw [receives_of_not_isEnd hend]
    have hne : r ≠ t := fun heq => hend (heq ▸ hs.isEnd)
    refine ⟨t, hs.of_pc, fun k hk => ?_⟩
    obtain rfl := Pc.receiving.inj hk
    exact Nat.lt_of_le_of_ne hr hne

theorem Inv.step {ev : Event} (hs : Inv s) (h : step s ev = some s') : Inv s' := by
  obtain ⟨t, hs, hlt⟩ := hs
  cases step_cases h with
  | begin _ => exact hs.receives (Nat.zero_le t)
  | again r hpc => exact hs.receives (hlt r hpc).le
  | byte r c input hpc =>
    -- the byte goes before the end that guards the loop
    have hguarded : Guarded t { s with input := input, buf := s.buf.store r [c] } := by
      refine ⟨hs.lt, ?_, hs.le, hs.commands, hs.descending⟩
      show IsEnd (s.buf.store r [c] t)
      rw [Memory.store_of_le (hlt r hpc)]
      exact hs.isEnd
    exact hguarded.receives (hlt r hpc)
  | outside pc sent hpc => exact hs.of_pc.inv hpc

/-- **The bounds**: whatever the client sends, and however it arrives, no pass of the echo loop
gets to the length of the welcome message, and none receives more bytes than the one before. -/
theorem inBounds {input : List Byte} (h : (echoLoop input).Reachable s) :
    InBounds s ∧ welcome.length < bufSize := by
  have hs : Inv s := by
    refine h.invariant ?_ fun s ev s' _ hs hstep => hs.step hstep
    rintro s ⟨buf, rfl⟩
    have hfirst := firstEnd_welcomed buf
    refine ⟨welcome.length - 1, ⟨?_, hfirst.isEnd, nofun, nofun, List.Pairwise.nil⟩, nofun⟩
    rw [length_welcome]
    decide
  refine ⟨hs.bounds, ?_⟩
  rw [length_welcome]
  decide

/-- What a client sends: a line of 51 bytes, one of 97 and the beginning of a third. -/
def threeLines : List Byte :=
  List.replicate 50 120 ++ [newline] ++ List.replicate 96 121 ++ [newline] ++ [122]

/-- The first pass has received 98 bytes, the second one 50, up to where the newline of the first
line was, and the third one has begun. -/
theorem inBounds_two : ∃ s, (echoLoop threeLines).Reachable s ∧
    s.commands.map List.length = [98, 50] ∧ s.pc = .receiving 1 ∧ InBounds s := by
  have hrun : ((echoLoop threeLines).run (start (fun _ => 0) .pass threeLines)
      ([.begin] ++ List.replicate 98 .byte ++ [.taken 98, .begin] ++ List.replicate 50 .byte
        ++ [.interrupted, .taken 50, .begin, .interrupted, .byte])).map
        (fun s => (s.commands.map List.length, s.pc)) = some ([98, 50], .receiving 1) := by
    decide +kernel
  obtain ⟨s, hs, hlengths⟩ := Option.map_eq_some_iff.mp hrun
  have hr := (Machine.Reachable.init (M := echoLoop threeLines) ⟨_, rfl⟩).run hs
  exact ⟨s, hr, (Prod.mk.inj hlengths).1, (Prod.mk.inj hlengths).2, (inBounds hr).1⟩

end EchoServer
