/-
`main` of the copy program of Lab06/01.

* `State.Inv` — what `main` knows of the copy at each of its points;
* `exists_success` — with accepted arguments the program can exit with success;
* `dest_eq_src` — then the destination equals the source exactly when the file that is
  overwritten is not longer, as neither `open` truncates it.
-/
import SistemiDiCalcolo.CopyContent

open AccessLog (Byte)

namespace FileCopy

variable {args : Args} {src : List Byte} {old : Option (List Byte)} {s s' : State} {ev : Event}
  {block_size : ℕ} {c c' : Copy}

/-- Nothing has been done yet. -/
def Copy.Fresh (old : Option (List Byte)) (c : Copy) : Prop :=
  c.pc = .outer ∧ c.offset = 0 ∧ c.accepted = [] ∧ c.dest = old

/-- The copy is under way, or the second `open` has failed. -/
def Copy.Open (src : List Byte) (old : Option (List Byte)) (block_size : ℕ) (c : Copy) : Prop :=
  c.destFd = none ∨ c.Inv src (old.getD []) block_size

/-- What `main` knows at each of its points. -/
def State.Inv (args : Args) (src : List Byte) (old : Option (List Byte)) (s : State) : Prop :=
  match s.pc with
  | .args => s.copy.Fresh old
  | .openSource | .openDest => 0 < args.block_size ∧ s.copy.Fresh old
  | .reopenDest => 0 < args.block_size ∧ s.copy.Fresh old ∧ old ≠ none
  | .copying => 0 < args.block_size ∧ s.copy.Open src old args.block_size.toNat
  | .closeSource | .closeDest => s.copy.pc = .returned ∧ s.copy.Open src old args.block_size.toNat
  | .exited true => s.copy.pc = .returned ∧ s.copy.Inv src (old.getD []) args.block_size.toNat
  | .exited false => True

/-- The descriptor that is not there is never used. -/
theorem CopyStep.destFd_eq_none (h : CopyStep src block_size c ev c') (hc : c.destFd = none) :
    c'.destFd = none := by
  cases h with
  | write w l n offset _ hfd _ _ =>
    rw [hc] at hfd
    cases hfd
  | _ => exact hc

theorem Copy.Open.step (hpos : 0 < block_size) (hc : c.Open src old block_size)
    (h : copyStep src block_size c ev = some c') : c'.Open src old block_size := by
  rcases hc with hnone | hinv
  · exact .inl ((copyStep_cases h).destFd_eq_none hnone)
  · exact .inr (hinv.step hpos h)

/-- The copy begins with an open destination. -/
theorem Copy.Fresh.open {file : List Byte} (hc : c.Fresh old) (hfile : old.getD [] = file) :
    ({ c with dest := some file, destFd := some 0 } : Copy).Inv src (old.getD []) block_size := by
  obtain ⟨hpc, hoffset, haccepted, -⟩ := hc
  refine ⟨?_, ?_, ?_, ?_⟩
  · show c.offset ≤ _
    omega
  · rw [Copy.Loops, hpc, hoffset]
    exact haccepted
  · rw [haccepted]
    rfl
  · rw [haccepted, hfile]
    rfl

theorem State.Inv.step (hs : s.Inv args src old) (h : step args src s ev = some s') :
    s'.Inv args src old := by
  unfold FileCopy.step at h
  cases hpc : s.pc with
  | args =>
    rw [State.Inv, hpc] at hs
    simp only [hpc] at h
    split at h <;> cases h
    · trivial
    · exact ⟨by omega, hs⟩
  | openSource =>
    rw [State.Inv, hpc] at hs
    simp only [hpc] at h
    cases ev <;> cases h
    · exact hs
    · trivial
  | openDest =>
    rw [State.Inv, hpc] at hs
    simp only [hpc] at h
    cases ev with
    | call ret =>
      cases hdest : s.copy.dest with
      | none =>
        -- the file is created, empty
        rw [hdest] at h
        cases h
        have hold : old = none := hs.2.2.2.2.symm.trans hdest
        exact ⟨hs.1, .inr (hs.2.open (by rw [hold]; rfl))⟩
      | some file =>
        -- `O_EXCL`: the file is there, and `main` goes on to open it again
        rw [hdest] at h
        cases h
        have hold : old = some file := hs.2.2.2.2.symm.trans hdest
        exact ⟨hs.1, hs.2, by rw [hold]; exact Option.some_ne_none file⟩
    | error =>
      cases h
      trivial
  | reopenDest =>
    rw [State.Inv, hpc] at hs
    simp only [hpc] at h
    cases ev with
    | call ret =>
      cases h
      obtain ⟨file, hold⟩ := Option.ne_none_iff_exists'.mp hs.2.2
      have hdest : s.copy.dest = some file := hs.2.1.2.2.2.trans hold
      refine ⟨hs.1, .inr ?_⟩
      rw [hdest]
      exact hs.2.1.open (by rw [hold]; rfl)
    | error =>
      -- not checked: the copy starts without a descriptor
      cases h
      exact ⟨hs.1, .inl rfl⟩
  | copying =>
    rw [State.Inv, hpc] at hs
    simp only [hpc] at h
    split at h
    · next hreturned =>
      cases h
      exact ⟨hreturned, hs.2⟩
    · cases h
      trivial
    · obtain ⟨c, hstep, rfl⟩ := Option.map_eq_some_iff.mp h
      exact ⟨hs.1, hs.2.step (by omega) hstep⟩
  | closeSource =>
    rw [State.Inv, hpc] at hs
    simp only [hpc] at h
    cases ev <;> cases h
    · exact hs
    · trivial
  | closeDest =>
    rw [State.Inv, hpc] at hs
    simp only [hpc] at h
    rcases hs.2 with hnone | hinv
    · rw [hnone] at h
      cases h
      trivial
    · rw [hinv.destFd] at h
      cases ev <;> cases h
      · exact ⟨hs.1, hinv⟩
      · trivial
  | exited b =>
    simp only [hpc] at h
    cases h

theorem inv (h : (program args src old).Reachable s) : s.Inv args src old := by
  refine h.invariant (I := State.Inv args src old) ?_ fun s ev s' _ hs hstep => hs.step hstep
  rintro s ⟨buf, rfl⟩
  exact ⟨rfl, rfl, rfl, rfl⟩

/-! ### The program can exit with success -/

/-- A call that moves bytes on open descriptors has not failed. -/
theorem CopyStep.ne_failed (h : CopyStep src block_size c ev c') (hev : ev.isMoved = true)
    (hfd : c.destFd ≠ none) (hc : c.pc ≠ .failed) : c'.pc ≠ .failed ∧ c'.destFd ≠ none := by
  cases h with
  | write w l n offset _ _ _ _ => exact ⟨CopyPc.noConfusion, Option.some_ne_none _⟩
  | readEintr r l hpc _ | writeEintr w l hpc _ => exact ⟨hc, hfd⟩
  | fail _ _ hfail =>
    rcases hfail with rfl | hnone
    · cases hev
    · exact absurd hnone hfd
  | _ => exact ⟨CopyPc.noConfusion, hfd⟩

/-- While it is copying, `main` takes the steps of the copy. -/
theorem step_copying (h : copyStep src args.block_size.toNat c ev = some c') :
    step args src ⟨.copying, c⟩ ev = some ⟨.copying, c'⟩ := by
  cases hpc : c.pc with
  | returned | failed =>
    rw [copyStep, hpc] at h
    cases h
  | _ => simp only [step, hpc, h, Option.map_some]

/-- A run of transfers of the copy is one of `main`, and does not fail. -/
theorem run_copying (old : Option (List Byte)) {evs : List Event}
    (hevs : ∀ ev ∈ evs, ev.isMoved = true)
    (hrun : (performCopyBetweenDescriptors src args.block_size.toNat).run c evs = some c')
    (hfd : c.destFd ≠ none) (hc : c.pc ≠ .failed) :
    (program args src old).run ⟨.copying, c⟩ evs = some ⟨.copying, c'⟩ ∧ c'.pc ≠ .failed ∧
      c'.destFd ≠ none := by
  induction evs generalizing c with
  | nil =>
    obtain rfl : c = c' := by simpa using hrun
    exact ⟨rfl, hc, hfd⟩
  | cons ev evs ih =>
    obtain ⟨u, hu, hrest⟩ := Machine.run_cons_eq_some.mp hrun
    obtain ⟨hev, hevs'⟩ := List.forall_mem_cons.mp hevs
    obtain ⟨hu₁, hu₂⟩ := (copyStep_cases hu).ne_failed hev hfd hc
    obtain ⟨hr, hc'⟩ := ih hevs' hrest hu₂ hu₁
    exact ⟨by rw [Machine.run_cons (step_copying hu), hr], hc'⟩

/-- Accepted arguments. -/
structure Args.Accepted (args : Args) : Prop where
  argc : args.argc = 3 ∨ args.argc = 4
  block_size : 0 < args.block_size

/-- With accepted arguments the program comes to the copy, both files open. -/
theorem exists_copying (hargs : args.Accepted) (src : List Byte) (old : Option (List Byte)) :
    ∃ c, (program args src old).Reachable ⟨.copying, c⟩ ∧ c.pc = .outer ∧ c.destFd = some 0 := by
  have hargc := hargs.argc
  have hblock := hargs.block_size
  have hstart : (program args src old).Reachable (start (fun _ => 0) old) := .init ⟨_, rfl⟩
  have hsource : (program args src old).Reachable
      { start (fun _ => 0) old with pc := .openSource } := by
    refine hstart.step (.call (.moved 0)) ?_
    show (if _ then _ else _) = _
    rw [if_neg (by omega)]
  have hdest := hsource.step (.call (.moved 0)) rfl
  cases old with
  | none => exact ⟨_, hdest.step (.call (.moved 0)) rfl, rfl, rfl⟩
  | some file =>
    exact ⟨_, (hdest.step (.call (.moved 0)) rfl).step (.call (.moved 0)) rfl, rfl, rfl⟩

/-- With accepted arguments some run ends with success. -/
theorem exists_success (hargs : args.Accepted) (src : List Byte) (old : Option (List Byte)) :
    ∃ s, (program args src old).Reachable s ∧ s.pc = .exited true := by
  obtain ⟨c, hc, hpc, hfd⟩ := exists_copying hargs src old
  obtain ⟨evs, c', hevs, hrun, hq⟩ := Machine.exists_run_quiescent (P := Event.isMoved)
    (M := performCopyBetweenDescriptors src args.block_size.toNat)
    (fun s ev s' hstep hP => (copyStep_stepsLeft hstep).2 hP) c
  obtain ⟨hrun', hfailed, hfd'⟩ := run_copying old hevs hrun
    (by rw [hfd]; exact Option.some_ne_none 0) (by rw [hpc]; exact CopyPc.noConfusion)
  have hc' := hc.run hrun'
  have hopen : c'.Inv src (old.getD []) args.block_size.toNat := (inv hc').2.resolve_left hfd'
  have hreturned : c'.pc = .returned := by
    refine (ended_of_eq_none hopen.offset (hq (.call (.moved 0)) rfl)
      (hq (.call (.moved 1)) rfl)).resolve_right hfailed
  have hclose : (program args src old).Reachable ⟨.closeSource, c'⟩ := by
    refine hc'.step (.call (.moved 0)) ?_
    show FileCopy.step args src ⟨.copying, c'⟩ (.call (.moved 0)) = _
    simp only [step, hreturned]
  have hcloseDest : (program args src old).Reachable ⟨.closeDest, c'⟩ :=
    hclose.step (.call (.moved 0)) rfl
  refine ⟨⟨.exited true, c'⟩, hcloseDest.step (.call (.moved 0)) ?_, rfl⟩
  show FileCopy.step args src ⟨.closeDest, c'⟩ (.call (.moved 0)) = _
  simp only [step, hopen.destFd]

/-! ### The destination of a successful run -/

/-- The rest of a longer file stays. -/
theorem append_drop_eq_self_iff {α : Type*} {xs ys : List α} :
    xs ++ ys.drop xs.length = xs ↔ ys.length ≤ xs.length := by
  rw [List.append_right_eq_self, List.drop_eq_nil_iff]

/-- The source, and what it does not cover of the old file. -/
theorem dest_of_success (h : (program args src old).Reachable s) (hpc : s.pc = .exited true) :
    s.copy.dest = some (src ++ (old.getD []).drop src.length) := by
  have hs := inv h
  rw [State.Inv, hpc] at hs
  have hloops := hs.2.loops
  rw [Copy.Loops, hs.1] at hloops
  rw [hs.2.dest, hloops]

/-- **The destination equals the source** in the successful runs exactly when the path
was free, or held a file no longer than the source. -/
theorem dest_eq_src (args : Args) (hargs : args.Accepted) (src : List Byte)
    (old : Option (List Byte)) :
    (∀ s, (program args src old).Reachable s → s.pc = .exited true → s.copy.dest = some src) ↔
      ∀ file, old = some file → file.length ≤ src.length := by
  constructor
  · intro hall file hold
    obtain ⟨s, h, hpc⟩ := exists_success hargs src old
    have heq := (dest_of_success h hpc).symm.trans (hall s h hpc)
    rw [hold, Option.some.injEq, Option.getD_some] at heq
    exact append_drop_eq_self_iff.mp heq
  · intro hlen s h hpc
    rw [dest_of_success h hpc, Option.some.injEq, append_drop_eq_self_iff]
    cases hold : old with
    | none => exact Nat.zero_le _
    | some file => exact hlen file hold

/-- A file of two bytes is overwritten with one: the second byte is left. -/
theorem dest_ne_src :
    ∃ s, (program ⟨3, 0⟩ [1] (some [2, 3])).Reachable s ∧ s.pc = .exited true ∧
      s.copy.dest = some [1, 3] ∧ s.copy.dest ≠ some [1] := by
  have hargs : Args.Accepted ⟨3, 0⟩ := ⟨.inl rfl, by decide⟩
  obtain ⟨s, h, hpc⟩ := exists_success hargs [1] (some [2, 3])
  have hdest : s.copy.dest = some [1, 3] := dest_of_success h hpc
  exact ⟨s, h, hpc, hdest, by rw [hdest]; decide⟩

theorem dest_eq_src_shorter :
    (∀ s, (program ⟨4, 2⟩ [1, 2, 3] (some [7])).Reachable s → s.pc = .exited true →
      s.copy.dest = some [1, 2, 3]) ↔
      ∀ file : List Byte, some [7] = some file → file.length ≤ [1, 2, 3].length :=
  dest_eq_src ⟨4, 2⟩ ⟨.inr rfl, by decide⟩ [1, 2, 3] (some [7])

end FileCopy
