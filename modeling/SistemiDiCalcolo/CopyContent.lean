/-
The loops of the copy program of Lab06/01.

* `Copy.Inv` — what has been written and what is in the buffer is what has been read;
* `copyStep_stepsLeft` — what every transfer and every other step uses up;
* `copy_exact` — the copy, for every block size and every schedule of short and
  interrupted calls.
-/
import SistemiDiCalcolo.Copy

open AccessLog (Byte)

namespace FileCopy

variable {src old : List Byte} {block_size : ℕ} {s s' : Copy} {ev : Event}

/-! ### What a step of the loops can do -/

/-- The steps of `performCopyBetweenDescriptors`. -/
inductive CopyStep (src : List Byte) (block_size : ℕ) (s : Copy) : Event → Copy → Prop
  | begin (ev : Event) : s.pc = .outer →
      CopyStep src block_size s ev { s with pc := .reading 0 block_size }
  | readEintr (r l : ℕ) : s.pc = .reading r l → 0 < l → CopyStep src block_size s (.call .eintr) s
  | eof (r l : ℕ) : s.pc = .reading r l → s.offset = src.length →
      CopyStep src block_size s (.call (.moved 0)) { s with pc := .test r }
  | read (r l n : ℕ) : s.pc = .reading r l → 0 < n → n ≤ l → s.offset + n ≤ src.length →
      CopyStep src block_size s (.call (.moved n)) { s with
        pc := .reading (r + n) (l - n)
        buf := s.buf.store r ((src.drop s.offset).take n)
        offset := s.offset + n }
  | filled (ev : Event) (r : ℕ) : s.pc = .reading r 0 →
      CopyStep src block_size s ev { s with pc := .test r }
  | leave (ev : Event) : s.pc = .test 0 → CopyStep src block_size s ev { s with pc := .returned }
  | empty (ev : Event) (r : ℕ) : s.pc = .test r → 0 < r →
      CopyStep src block_size s ev { s with pc := .writing 0 r }
  | writeEintr (w l : ℕ) : s.pc = .writing w l → 0 < l → CopyStep src block_size s (.call .eintr) s
  | write (w l n offset : ℕ) : s.pc = .writing w l → s.destFd = some offset → 0 < n → n ≤ l →
      CopyStep src block_size s (.call (.moved n)) { s with
        pc := .writing (w + n) (l - n)
        dest := s.dest.map (writeAt · offset (s.buf.load w n))
        destFd := some (offset + n)
        accepted := s.accepted ++ s.buf.load w n }
  | emptied (ev : Event) (w : ℕ) : s.pc = .writing w 0 →
      CopyStep src block_size s ev { s with pc := .outer }
  | fail (ev : Event) : (∃ r l, s.pc = .reading r l) ∨ (∃ w l, s.pc = .writing w l) →
      ev = .error ∨ s.destFd = none → CopyStep src block_size s ev { s with pc := .failed }

theorem copyStep_cases (h : copyStep src block_size s ev = some s') :
    CopyStep src block_size s ev s' := by
  unfold copyStep at h
  cases hpc : s.pc with
  | outer =>
    simp only [hpc] at h
    cases h
    exact .begin ev hpc
  | reading r l =>
    simp only [hpc] at h
    split at h
    · next hl =>
      match ev with
      | .call .eintr =>
        cases h
        exact .readEintr r l hpc hl
      | .call (.moved 0) =>
        simp only at h
        split at h <;> cases h
        next hend => exact .eof r l hpc hend
      | .call (.moved (n + 1)) =>
        simp only at h
        split at h <;> cases h
        next hn => exact .read r l (n + 1) hpc (Nat.succ_pos n) hn.1 hn.2
      | .error =>
        cases h
        exact .fail .error (.inl ⟨r, l, hpc⟩) (.inl rfl)
    · next hl =>
      cases h
      obtain rfl : l = 0 := by omega
      exact .filled ev r hpc
  | test r =>
    simp only [hpc] at h
    cases h
    by_cases hr : r = 0
    · subst hr
      exact .leave ev hpc
    · rw [if_neg hr]
      exact .empty ev r hpc (Nat.pos_of_ne_zero hr)
  | writing w l =>
    simp only [hpc] at h
    split at h
    · next hl =>
      match hfd : s.destFd, ev with
      | some offset, .call .eintr =>
        simp only [hfd] at h
        cases h
        exact .writeEintr w l hpc hl
      | some offset, .call (.moved n) =>
        simp only [hfd] at h
        split at h <;> cases h
        next hn => exact .write w l n offset hpc hfd hn.1 hn.2
      | some offset, .error =>
        simp only [hfd] at h
        cases h
        rw [← hfd]
        exact .fail .error (.inr ⟨w, l, hpc⟩) (.inl rfl)
      | none, ev =>
        simp only [hfd] at h
        cases h
        rw [← hfd]
        exact .fail ev (.inr ⟨w, l, hpc⟩) (.inr hfd)
    · next hl =>
      cases h
      obtain rfl : l = 0 := by omega
      exact .emptied ev w hpc
  | returned =>
    simp only [hpc] at h
    cases h
  | failed =>
    simp only [hpc] at h
    cases h

/-! ### What is written is what has been read -/

/-- The bytes accepted by `write` and those to be written from the buffer are the ones
read so far, at each point; and no range goes beyond `block_size`. -/
def Copy.Loops (src : List Byte) (block_size : ℕ) (s : Copy) : Prop :=
  match s.pc with
  | .outer => s.accepted = src.take s.offset
  | .reading r l => r + l = block_size ∧ s.accepted ++ s.buf.load 0 r = src.take s.offset
  | .test r => r ≤ block_size ∧ (r = 0 → s.offset = src.length) ∧
      s.accepted ++ s.buf.load 0 r = src.take s.offset
  | .writing w l => w + l ≤ block_size ∧ s.accepted ++ s.buf.load w l = src.take s.offset
  | .returned => s.accepted = src
  | .failed => s.accepted <+: src

/-- The loops, and the destination: the bytes accepted, over the beginning of `old`. -/
structure Copy.Inv (src old : List Byte) (block_size : ℕ) (s : Copy) : Prop where
  offset : s.offset ≤ src.length
  loops : s.Loops src block_size
  destFd : s.destFd = some s.accepted.length
  dest : s.dest = some (s.accepted ++ old.drop s.accepted.length)

theorem Copy.Loops.accepted_prefix (h : s.Loops src block_size) : s.accepted <+: src := by
  cases hpc : s.pc <;> simp only [Copy.Loops, hpc] at h
  case outer => exact h ▸ List.take_prefix _ _
  case reading r l => exact List.IsPrefix.trans ⟨_, h.2⟩ (List.take_prefix _ _)
  case test r => exact List.IsPrefix.trans ⟨_, h.2.2⟩ (List.take_prefix _ _)
  case writing w l => exact List.IsPrefix.trans ⟨_, h.2⟩ (List.take_prefix _ _)
  case returned => exact h ▸ List.prefix_rfl
  case failed => exact h

theorem CopyStep.loops (hpos : 0 < block_size) (h : CopyStep src block_size s ev s')
    (hs : s.Loops src block_size) : s'.Loops src block_size := by
  have hprefix := hs.accepted_prefix
  cases h with
  | begin _ hpc =>
    rw [Copy.Loops, hpc] at hs
    refine ⟨Nat.zero_add _, ?_⟩
    show s.accepted ++ [] = _
    rw [List.append_nil, hs]
  | readEintr r l hpc _ | writeEintr w l hpc _ => exact hs
  | eof r l hpc hend =>
    rw [Copy.Loops, hpc] at hs
    exact ⟨by omega, fun _ => hend, hs.2⟩
  | read r l n hpc hn hle hrest =>
    rw [Copy.Loops, hpc] at hs
    refine ⟨by omega, ?_⟩
    have hlen : ((src.drop s.offset).take n).length = n := by
      rw [List.length_take, List.length_drop]
      omega
    -- the new bytes come right after those that are in the buffer
    show s.accepted ++ Memory.load _ 0 (r + n) = src.take (s.offset + n)
    rw [Memory.load_store_append (Nat.zero_add r) hlen, ← List.append_assoc, hs.2, List.take_add]
  | filled _ r hpc =>
    rw [Copy.Loops, hpc] at hs
    exact ⟨by omega, fun hr => by omega, hs.2⟩
  | leave _ hpc =>
    -- nothing is in the buffer, and the source is at its end
    rw [Copy.Loops, hpc] at hs
    show s.accepted = src
    rw [← List.append_nil s.accepted, ← Memory.load_zero (m := s.buf), hs.2.2, hs.2.1 rfl,
      List.take_length]
  | empty _ r hpc hr =>
    rw [Copy.Loops, hpc] at hs
    exact ⟨by omega, hs.2.2⟩
  | write w l n offset hpc _ hn hle =>
    rw [Copy.Loops, hpc] at hs
    refine ⟨by omega, ?_⟩
    -- what is accepted is the front of what was left
    show s.accepted ++ _ ++ Memory.load _ (w + n) (l - n) = _
    rw [List.append_assoc, ← Memory.load_add, Nat.add_sub_cancel' hle]
    exact hs.2
  | emptied _ w hpc =>
    rw [Copy.Loops, hpc] at hs
    have hread := hs.2
    rwa [Memory.load_zero, List.append_nil] at hread
  | fail _ _ _ => exact hprefix

/-- The destination after a `write` at the end of what has been accepted. -/
theorem writeAt_end (accepted data : List Byte) :
    writeAt (accepted ++ old.drop accepted.length) accepted.length data
      = accepted ++ data ++ old.drop (accepted ++ data).length := by
  rw [writeAt, List.take_left, List.drop_append, List.drop_drop, List.length_append]
  simp

theorem Copy.Inv.step (hpos : 0 < block_size) (hs : s.Inv src old block_size)
    (h : copyStep src block_size s ev = some s') : s'.Inv src old block_size := by
  have hstep := copyStep_cases h
  have hloops := hstep.loops hpos hs.loops
  cases hstep with
  | write w l n offset _ hfd _ _ =>
    obtain rfl : s.accepted.length = offset := by simpa [hs.destFd] using hfd
    refine ⟨hs.offset, hloops, ?_, ?_⟩
    · show some _ = some _
      rw [List.length_append, Memory.length_load]
    · show s.dest.map _ = some _
      rw [hs.dest, Option.map_some, writeAt_end]
  | read r l n _ _ _ hrest => exact ⟨hrest, hloops, hs.destFd, hs.dest⟩
  | _ => exact ⟨hs.offset, hloops, hs.destFd, hs.dest⟩

theorem inv_startCopy (buf : Memory Byte) : (startCopy buf old).Inv src old block_size :=
  ⟨Nat.zero_le _, rfl, rfl, rfl⟩

/-! ### The loops come to an end -/

/-- What every transfer and every other step uses up: at most 6 for each byte of the
source. -/
def Copy.stepsLeft (src : List Byte) (s : Copy) : ℕ :=
  match s.pc with
  | .outer => 6 * (src.length - s.offset) + 3
  | .reading r _ => 6 * (src.length - s.offset) + 5 * r + 2
  | .test r => 6 * (src.length - s.offset) + 5 * r + 1
  | .writing _ l => 6 * (src.length - s.offset) + l + 4
  | .returned | .failed => 0

theorem copyStep_stepsLeft (h : copyStep src block_size s ev = some s') :
    s'.stepsLeft src ≤ s.stepsLeft src ∧
      (ev.isMoved = true → s'.stepsLeft src < s.stepsLeft src) := by
  cases copyStep_cases h with
  | readEintr r l hpc _ | writeEintr w l hpc _ => exact ⟨le_rfl, fun h => by cases h⟩
  | begin _ hpc | eof r l hpc _ | filled _ r hpc | leave _ hpc | emptied _ w hpc =>
    simp only [Copy.stepsLeft, hpc]
    omega
  | empty _ r hpc hr =>
    simp only [Copy.stepsLeft, hpc]
    omega
  | read r l n hpc hn _ hrest =>
    simp only [Copy.stepsLeft, hpc]
    omega
  | write w l n offset hpc _ hn _ =>
    simp only [Copy.stepsLeft, hpc]
    omega
  | fail _ hpc _ =>
    rcases hpc with ⟨r, l, hpc⟩ | ⟨w, l, hpc⟩ <;> simp only [Copy.stepsLeft, hpc] <;> omega

/-- If no transfer is possible, the function has ended. -/
theorem ended_of_eq_none (hs : s.offset ≤ src.length)
    (hzero : copyStep src block_size s (.call (.moved 0)) = none)
    (hone : copyStep src block_size s (.call (.moved 1)) = none) :
    s.pc = .returned ∨ s.pc = .failed := by
  cases hpc : s.pc <;> simp only [copyStep, hpc] at hzero hone
  case outer => cases hzero
  case reading r l =>
    split at hone
    · next hl =>
      rw [if_pos hl] at hzero
      split at hzero
      · cases hzero
      · next hend =>
        rw [if_pos (by omega)] at hone
        cases hone
    · cases hone
  case test r => cases hzero
  case writing w l =>
    split at hone
    · next hl =>
      cases hfd : s.destFd with
      | none =>
        rw [hfd] at hone
        cases hone
      | some offset =>
        simp only [hfd] at hone
        rw [if_pos ⟨Nat.one_pos, hl⟩] at hone
        cases hone
    · cases hone
  case returned => exact .inl rfl
  case failed => exact .inr rfl

/-- The ranges of the buffer that `read` and `write` are given lie within `block_size`. -/
def Copy.InBlock (block_size : ℕ) (s : Copy) : Prop :=
  match s.pc with
  | .reading start len | .writing start len => start + len ≤ block_size
  | _ => True

theorem Copy.Loops.inBlock (h : s.Loops src block_size) : s.InBlock block_size := by
  cases hpc : s.pc <;> simp only [Copy.Loops, Copy.InBlock, hpc] at h ⊢
  case reading r l => exact h.1.le
  case writing w l => exact h.1

/-- **The copy is exact**: whatever the block size and the schedule, what has been written
is a prefix of the source, all of it when the function returns; and it does come to an
end, as long as its calls do not fail. -/
theorem copy_exact (src : List Byte) (block_size : ℕ) (hpos : 0 < block_size) :
    (∀ s, (performCopyBetweenDescriptors src block_size).Reachable s →
      s.accepted <+: src ∧ s.InBlock block_size ∧ (s.pc = .returned → s.accepted = src)) ∧
    (∀ s, (performCopyBetweenDescriptors src block_size).Reachable s →
      (performCopyBetweenDescriptors src block_size).Quiescent Event.isMoved s →
      s.pc = .returned ∨ s.pc = .failed) ∧
    ∀ s s' evs, (performCopyBetweenDescriptors src block_size).init s →
      (performCopyBetweenDescriptors src block_size).run s evs = some s' →
      evs.countP Event.isMoved ≤ 6 * src.length + 3 := by
  have hinv : ∀ s, (performCopyBetweenDescriptors src block_size).Reachable s →
      ∃ old, s.Inv src old block_size := by
    intro s h
    refine h.invariant (I := fun s => ∃ old, s.Inv src old block_size) ?_ ?_
    · rintro s ⟨buf, old, rfl⟩
      exact ⟨old, inv_startCopy buf⟩
    · rintro s ev s' - ⟨old, hs⟩ hstep
      exact ⟨old, hs.step hpos hstep⟩
  refine ⟨?_, ?_, ?_⟩
  · intro s h
    obtain ⟨old, hs⟩ := hinv s h
    refine ⟨hs.loops.accepted_prefix, hs.loops.inBlock, fun hpc => ?_⟩
    have hloops := hs.loops
    rwa [Copy.Loops, hpc] at hloops
  · intro s h hq
    obtain ⟨old, hs⟩ := hinv s h
    exact ended_of_eq_none hs.offset (hq (.call (.moved 0)) rfl) (hq (.call (.moved 1)) rfl)
  · rintro s s' evs ⟨buf, old, rfl⟩ hrun
    have hbound := Machine.run_countP_measure (P := Event.isMoved) (μ := Copy.stepsLeft src)
      (fun s ev s' hstep hP => (copyStep_stepsLeft hstep).2 hP)
      (fun s ev s' hstep _ => (copyStep_stepsLeft hstep).1) hrun
    exact (Nat.le_add_right _ _).trans hbound

theorem copy_exact_small :
    (∀ s, (performCopyBetweenDescriptors [1, 2, 3] 2).Reachable s →
      s.accepted <+: [1, 2, 3] ∧ s.InBlock 2 ∧ (s.pc = .returned → s.accepted = [1, 2, 3])) ∧
    (∀ s, (performCopyBetweenDescriptors [1, 2, 3] 2).Reachable s →
      (performCopyBetweenDescriptors [1, 2, 3] 2).Quiescent Event.isMoved s →
      s.pc = .returned ∨ s.pc = .failed) ∧
    ∀ s s' evs, (performCopyBetweenDescriptors [1, 2, 3] 2).init s →
      (performCopyBetweenDescriptors [1, 2, 3] 2).run s evs = some s' →
      evs.countP Event.isMoved ≤ 6 * [1, 2, 3].length + 3 :=
  copy_exact [1, 2, 3] 2 (by decide)

end FileCopy
