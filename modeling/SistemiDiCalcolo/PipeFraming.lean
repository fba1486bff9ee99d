/-
Messages keep their boundaries in the pipe of Lab06/02.

* `framed` — the blocks of the two sides are the same, in every reachable state;
* `step_stepsLeft` — every uninterrupted transfer and every other step uses up a part of the
  bound;
* `allDone_of_quiescent` — with equal totals on both sides, nothing is left to do
  when nobody can move.
-/
import SistemiDiCalcolo.PipeSections

open Function (update)
open AccessLog (Byte)

namespace Pipe

variable {prm : Params} {L : ℕ} {s s' : State prm} {p : Fin prm.numWriters} {c : Fin prm.numReaders}
  {ret : Ret}

theorem inv (hL : prm.dataLen < 2 ^ 31) (h : (program prm).Reachable s) :
    Inv (· = prm.dataLen) [] s := by
  refine h.invariant (I := Inv (· = prm.dataLen) []) ?_ ?_
  · rintro s ⟨wdata, rdata, rfl⟩
    exact inv_start [] wdata rdata
  · intro s t s' _ hs hstep
    exact hs.step hL rfl (fun h => absurd h Bool.false_ne_true) hstep

/-! ### The boundaries -/

/-- The messages are kept apart: the block that the `k`-th section of a reader takes is
the block that the `k`-th section of a writer puts in, sections begin and end at the
multiples of `sizeof(data)`, and every call returns `sizeof(data)`. -/
structure Framed (s : State prm) : Prop where
  blocks : ∀ (k : ℕ) (block : List Byte), s.taken[k]? = some block →
    (s.written ++ [s.writing])[k]? = some block ∧ block.length = prm.dataLen
  flow : s.written.flatten ++ s.writing = s.taken.flatten ++ s.taking ++ s.pipe
  writeBegins : ∀ k ≤ s.written.length, (s.written.take k).flatten.length = k * prm.dataLen
  readBegins : ∀ k ≤ s.taken.length, (s.taken.take k).flatten.length = k * prm.dataLen
  current : s.writing.length ≤ prm.dataLen ∧ s.taking.length ≤ prm.dataLen
  writeReturns : ∀ p ret, (s.writer p).pc = .postMutex ret → ret = prm.dataLen
  readReturns : ∀ c ret, (s.reader c).pc = .postMutex ret → ret = prm.dataLen

theorem Writer.Ok.moved_le {t : Writer} (ht : t.Ok prm) : t.phase.moved ≤ prm.dataLen := by
  cases hpc : t.pc <;> simp only [Writer.Ok, Writer.phase, hpc, Sections.Phase.moved] at ht ⊢
  case writing v => exact ht.2.toNat_le
  all_goals exact Nat.zero_le _

theorem Reader.Ok.moved_le {good : ℕ → Prop} {t : Reader} (ht : t.Ok prm good) :
    t.phase.moved ≤ prm.dataLen := by
  cases hpc : t.pc <;> simp only [Reader.Ok, Reader.phase, hpc, Sections.Phase.moved] at ht ⊢
  case reading v => exact ht.2.toNat_le
  all_goals exact Nat.zero_le _

/-- The block under way is a part of one message. -/
theorem Inv.writing_le {good : ℕ → Prop} {stream : List Byte} (hs : Inv good stream s) :
    s.writing.length ≤ prm.dataLen := by
  by_contra hlt
  obtain ⟨p, hp⟩ := hs.writeSide.exists_current (Nat.zero_lt_of_lt (Nat.not_le.mp hlt))
  exact hlt (hp.trans_le (hs.locals.writer p).moved_le)

theorem Inv.taking_le {good : ℕ → Prop} {stream : List Byte} (hs : Inv good stream s) :
    s.taking.length ≤ prm.dataLen := by
  by_contra hlt
  obtain ⟨c, hc⟩ := hs.readSide.exists_current (Nat.zero_lt_of_lt (Nat.not_le.mp hlt))
  exact hlt (hc.trans_le (hs.locals.reader c).moved_le)

theorem framed (hpos : 0 < prm.dataLen) (hL : prm.dataLen < 2 ^ 31)
    (h : (program prm).Reachable s) : Framed s := by
  have hs := inv hL h
  have hflow : s.written.flatten ++ s.writing = s.taken.flatten ++ (s.taking ++ s.pipe) := by
    rw [← List.append_assoc]
    exact hs.flow
  refine ⟨?_, hs.flow, ?_, ?_, ⟨hs.writing_le, hs.taking_le⟩, ?_, ?_⟩
  · intro k block hk
    exact ⟨Sections.getElem?_of_flatten_eq hpos hs.readSide.finished hs.writeSide.finished
      hs.writing_le hflow hk, hs.readSide.finished block (List.mem_of_getElem? hk)⟩
  · intro k hk
    exact Sections.length_flatten_take hs.writeSide.finished hk
  · intro k hk
    exact Sections.length_flatten_take hs.readSide.finished hk
  · intro p ret hpc
    have hp := hs.locals.writer p
    rw [Writer.Ok, hpc] at hp
    exact hp.2
  · intro c ret hpc
    have hc := hs.locals.reader c
    rw [Reader.Ok, hpc] at hc
    rw [← hc.2.2, Int.toNat_of_nonneg hc.2.1]

/-! ### Nothing goes on for ever -/

/-- What a writer has before it: at most 4 steps a message beside the transfers. -/
def Writer.stepsLeft (prm : Params) (t : Writer) : ℕ :=
  match t.pc with
  | .loop => (prm.perWriter - t.i) * (prm.dataLen + 4) + 1
  | .waitMutex => (prm.perWriter - t.i - 1) * (prm.dataLen + 4) + (prm.dataLen + 4)
  | .writing v => (prm.perWriter - t.i - 1) * (prm.dataLen + 4) + (v.bytesRemaining.toNat + 3)
  | .postMutex _ => (prm.perWriter - t.i - 1) * (prm.dataLen + 4) + 2
  | .done => 0

/-- The same for a reader, with 5 steps a message. -/
def Reader.stepsLeft (prm : Params) (t : Reader) : ℕ :=
  match t.pc with
  | .loop => (prm.perReader - t.i) * (prm.dataLen + 5) + 1
  | .waitMutex => (prm.perReader - t.i - 1) * (prm.dataLen + 5) + (prm.dataLen + 5)
  | .reading v => (prm.perReader - t.i - 1) * (prm.dataLen + 5) + (v.bytesRemaining.toNat + 4)
  | .postMutex _ => (prm.perReader - t.i - 1) * (prm.dataLen + 5) + 3
  | .report _ => (prm.perReader - t.i - 1) * (prm.dataLen + 5) + 2
  | .done => 0

def State.stepsLeft (s : State prm) : ℕ :=
  tally (Writer.stepsLeft prm) s.writer + tally (Reader.stepsLeft prm) s.reader

/-- A message more to do. -/
theorem sub_mul_succ {n i k : ℕ} (hi : i < n) : (n - i) * k = (n - i - 1) * k + k := by
  obtain ⟨j, hj⟩ : ∃ j, n - i = j + 1 := ⟨n - i - 1, by omega⟩
  rw [hj, Nat.add_sub_cancel, Nat.succ_mul]

theorem Locals.init_remaining_le (hL : L < 2 ^ 31) : (Locals.init L).bytesRemaining.toNat ≤ L := by
  have hv := Locals.ok_init hL
  have := hv.sum
  have := hv.total
  omega

theorem writer_stepsLeft (hL : prm.dataLen < 2 ^ 31) (h : WriterStep s p ret s') :
    ∃ t, s'.writer = update s.writer p t ∧ t.stepsLeft prm ≤ (s.writer p).stepsLeft prm ∧
      (ret.isMoved = true → t.stepsLeft prm < (s.writer p).stepsLeft prm) := by
  have hinit := Locals.init_remaining_le hL
  cases h with
  | create _ hpc hi =>
    have hmul := sub_mul_succ (k := prm.dataLen + 4) hi
    refine ⟨_, rfl, ?_⟩
    simp only [Writer.stepsLeft, hpc]
    omega
  | stop _ hpc _ =>
    refine ⟨_, rfl, ?_⟩
    simp only [Writer.stepsLeft, hpc]
    omega
  | lock _ hpc _ =>
    refine ⟨_, rfl, ?_⟩
    simp only [Writer.stepsLeft, hpc]
    omega
  | eintr v hpc _ =>
    exact ⟨_, (Function.update_eq_self p s.writer).symm, le_rfl, fun h => by cases h⟩
  | write v n hpc hpos hn _ =>
    refine ⟨_, rfl, ?_⟩
    simp only [Writer.stepsLeft, hpc, Locals.moved]
    omega
  | ret _ v hpc hover =>
    refine ⟨_, rfl, ?_⟩
    simp only [Writer.stepsLeft, hpc]
    omega
  | unlock _ r hpc =>
    refine ⟨_, rfl, ?_⟩
    simp only [Writer.stepsLeft, hpc, Nat.sub_sub]
    omega

theorem reader_stepsLeft {eof : Bool} (hL : prm.dataLen < 2 ^ 31)
    (h : ReaderStep eof s c ret s') :
    ∃ t, s'.reader = update s.reader c t ∧ t.stepsLeft prm ≤ (s.reader c).stepsLeft prm ∧
      (ret.isMoved = true → t.stepsLeft prm < (s.reader c).stepsLeft prm) := by
  have hinit := Locals.init_remaining_le hL
  cases h with
  | begin _ hpc hi =>
    have hmul := sub_mul_succ (k := prm.dataLen + 5) hi
    refine ⟨_, rfl, ?_⟩
    simp only [Reader.stepsLeft, hpc]
    omega
  | stop _ hpc _ | lock _ hpc _ =>
    refine ⟨_, rfl, ?_⟩
    simp only [Reader.stepsLeft, hpc]
    omega
  | eintr v hpc _ =>
    exact ⟨_, (Function.update_eq_self c s.reader).symm, le_rfl, fun h => by cases h⟩
  | read v n hpc hpos hn _ =>
    refine ⟨_, rfl, ?_⟩
    simp only [Reader.stepsLeft, hpc, Locals.moved]
    omega
  | closed v hpc _ _ _ | ret _ v hpc _ =>
    refine ⟨_, rfl, ?_⟩
    simp only [Reader.stepsLeft, hpc]
    omega
  | unlock _ r hpc =>
    refine ⟨_, rfl, ?_⟩
    simp only [Reader.stepsLeft, hpc]
    omega
  | report _ r hpc =>
    refine ⟨_, rfl, ?_⟩
    simp only [Reader.stepsLeft, hpc, Nat.sub_sub]
    omega

/-- No step raises the number of steps left, and all but the interrupted calls lower it. -/
theorem step_stepsLeft {eof : Bool} (hL : prm.dataLen < 2 ^ 31) {t : Agent prm}
    (h : step eof s t = some s') :
    s'.stepsLeft ≤ s.stepsLeft ∧ (t.isMoved = true → s'.stepsLeft < s.stepsLeft) := by
  cases t with
  | writer p ret =>
    have hstep := writer_step h
    obtain ⟨t, ht, hle, hlt⟩ := writer_stepsLeft hL hstep
    have htally := tally_update (Writer.stepsLeft prm) s.writer p t
    rw [State.stepsLeft, State.stepsLeft, ht, hstep.frame.1]
    refine ⟨by omega, fun hret => ?_⟩
    have := hlt hret
    omega
  | reader c ret =>
    have hstep := reader_step h
    obtain ⟨t, ht, hle, hlt⟩ := reader_stepsLeft hL hstep
    have htally := tally_update (Reader.stepsLeft prm) s.reader c t
    rw [State.stepsLeft, State.stepsLeft, ht, hstep.frame.1]
    refine ⟨by omega, fun hret => ?_⟩
    have := hlt hret
    omega

/-! ### Nobody waits for ever -/

/-- Every process has finished. -/
def State.AllDone (s : State prm) : Prop :=
  (∀ p, (s.writer p).pc = .done) ∧ ∀ c, (s.reader c).pc = .done

/-- A writer that cannot move has finished, waits for the mutex, or finds the pipe full. -/
theorem writer_eq_none (h : writer s p (.moved 1) = none) :
    (s.writer p).pc = .done ∨ (s.writer p).pc = .waitMutex ∧ s.writeMutex = 0 ∨
      (∃ v, (s.writer p).pc = .writing v) ∧ prm.capacity ≤ s.pipe.length := by
  unfold writer at h
  cases hpc : (s.writer p).pc <;> simp only [hpc] at h
  case loop => split at h <;> cases h
  case waitMutex =>
    split at h
    · cases h
    · exact .inr (.inl ⟨rfl, by omega⟩)
  case writing v =>
    split at h
    · split at h
      · cases h
      · next hroom => exact .inr (.inr ⟨⟨v, rfl⟩, by omega⟩)
    · cases h
  case postMutex => cases h
  case done => exact .inl rfl

/-- A reader that cannot move has finished, waits for the mutex, or finds the pipe empty
in the middle of a message. -/
theorem reader_eq_none (h : reader false s c (.moved 1) = none) :
    (s.reader c).pc = .done ∨ (s.reader c).pc = .waitMutex ∧ s.readMutex = 0 ∨
      (∃ v, (s.reader c).pc = .reading v ∧ 0 < v.bytesRemaining) ∧ s.pipe = [] := by
  unfold reader at h
  cases hpc : (s.reader c).pc <;> simp only [hpc] at h
  case loop => cases h
  case waitMutex =>
    split at h
    · cases h
    · exact .inr (.inl ⟨rfl, by omega⟩)
  case reading v =>
    split at h
    · next hpos =>
      split at h
      · cases h
      · next hempty =>
        refine .inr (.inr ⟨⟨v, rfl, hpos⟩, ?_⟩)
        exact List.length_eq_zero_iff.mp (by omega)
    · cases h
  case postMutex => cases h
  case report => cases h
  case done => exact .inl rfl

/-- The bytes of its finished sections and of the one under way. -/
def volume (L : ℕ) (φ : Sections.Phase) : ℕ := φ.count * L + φ.moved

theorem Writer.Ok.volume_le {t : Writer} (ht : t.Ok prm) :
    volume prm.dataLen t.phase ≤ prm.perWriter * prm.dataLen := by
  cases hpc : t.pc <;>
    simp only [Writer.Ok, volume, Writer.phase, hpc, Sections.Phase.count, Sections.Phase.moved]
      at ht ⊢
  case loop => exact Nat.mul_le_mul_right _ ht
  case waitMutex => exact Nat.mul_le_mul_right _ ht.le
  case writing v =>
    have := ht.2.toNat_le
    have hmul : (t.i + 1) * prm.dataLen ≤ _ := Nat.mul_le_mul_right prm.dataLen ht.1
    rw [Nat.succ_mul] at hmul
    omega
  case postMutex => exact Nat.mul_le_mul_right _ ht.1
  case done => exact Nat.mul_le_mul_right _ ht.le

theorem Reader.Ok.volume_le {good : ℕ → Prop} {t : Reader} (ht : t.Ok prm good) :
    volume prm.dataLen t.phase ≤ prm.perReader * prm.dataLen := by
  cases hpc : t.pc <;>
    simp only [Reader.Ok, volume, Reader.phase, hpc, Sections.Phase.count, Sections.Phase.moved]
      at ht ⊢
  case loop => exact Nat.mul_le_mul_right _ ht
  case waitMutex => exact Nat.mul_le_mul_right _ ht.le
  case reading v =>
    have := ht.2.toNat_le
    have hmul : (t.i + 1) * prm.dataLen ≤ _ := Nat.mul_le_mul_right prm.dataLen ht.1
    rw [Nat.succ_mul] at hmul
    omega
  case postMutex => exact Nat.mul_le_mul_right _ ht.1
  case report => exact Nat.mul_le_mul_right _ ht.1
  case done => exact Nat.mul_le_mul_right _ ht.le

/-- The bytes put into the pipe and those taken out, process by process. -/
theorem Inv.volumes (hs : Inv (· = prm.dataLen) [] s) :
    tally (volume prm.dataLen) s.writeSide.phase
      = tally (volume prm.dataLen) s.readSide.phase + s.pipe.length := by
  have hput := hs.writeSide.volume
  have hgot := hs.readSide.volume
  have hflow := congrArg List.length hs.flow
  simp only [List.nil_append, List.length_append] at hflow
  show tally (fun φ : Sections.Phase => φ.count * prm.dataLen + φ.moved) _
    = tally (fun φ : Sections.Phase => φ.count * prm.dataLen + φ.moved) _ + _
  rw [← hput, ← hgot]
  exact hflow

/-- With nobody in a section, the mutex is free. -/
theorem lock_eq_one {ι : Type*} [Fintype ι] [DecidableEq ι] {ok : ℕ → Prop}
    {side : Sections ι Byte} (hs : side.Inv ok) (hout : ∀ i, (side.phase i).inside = 0) :
    side.lock = 1 := by
  have hlock := hs.lock
  rwa [tally_eq_zero.mpr hout, Nat.add_zero] at hlock

/-- If the pipe is empty and nobody can move, every writer has finished. -/
theorem writers_done (hs : Inv (· = prm.dataLen) [] s) (hroom : s.pipe.length < prm.capacity)
    (hstuck : ∀ p, writer s p (.moved 1) = none) (p : Fin prm.numWriters) :
    (s.writer p).pc = .done := by
  have hfree : s.writeSide.lock = 1 := by
    refine lock_eq_one hs.writeSide fun q => ?_
    show (s.writer q).phase.inside = 0
    rcases writer_eq_none (hstuck q) with hq | ⟨hq, -⟩ | ⟨-, hfull⟩
    · rw [Writer.phase, hq]
      rfl
    · rw [Writer.phase, hq]
      rfl
    · omega
  rcases writer_eq_none (hstuck p) with hp | ⟨-, hmutex⟩ | ⟨-, hfull⟩
  · exact hp
  · exact absurd (hfree.symm.trans hmutex) Nat.one_ne_zero
  · omega

/-- If the pipe is not empty and nobody can move, every reader has finished. -/
theorem readers_done (hs : Inv (· = prm.dataLen) [] s) (hne : s.pipe ≠ [])
    (hstuck : ∀ c, reader false s c (.moved 1) = none) (c : Fin prm.numReaders) :
    (s.reader c).pc = .done := by
  have hfree : s.readSide.lock = 1 := by
    refine lock_eq_one hs.readSide fun d => ?_
    show (s.reader d).phase.inside = 0
    rcases reader_eq_none (hstuck d) with hd | ⟨hd, -⟩ | ⟨-, hempty⟩
    · rw [Reader.phase, hd]
      rfl
    · rw [Reader.phase, hd]
      rfl
    · exact absurd hempty hne
  rcases reader_eq_none (hstuck c) with hc | ⟨-, hmutex⟩ | ⟨-, hempty⟩
  · exact hc
  · exact absurd (hfree.symm.trans hmutex) Nat.one_ne_zero
  · exact absurd hempty hne

theorem Writer.volume_of_done {t : Writer} (ht : t.Ok prm) (hpc : t.pc = .done) :
    volume prm.dataLen t.phase = prm.perWriter * prm.dataLen := by
  rw [Writer.Ok, hpc] at ht
  rw [Writer.phase, hpc, ← ht]
  exact Nat.add_zero _

theorem Reader.volume_of_done {good : ℕ → Prop} {t : Reader} (ht : t.Ok prm good)
    (hpc : t.pc = .done) : volume prm.dataLen t.phase = prm.perReader * prm.dataLen := by
  rw [Reader.Ok, hpc] at ht
  rw [Reader.phase, hpc, ← ht]
  exact Nat.add_zero _

/-- A reader that has taken all its bytes and cannot move has finished. -/
theorem done_of_volume {good : ℕ → Prop} {t : Reader} (hpos : 0 < prm.dataLen)
    (ht : t.Ok prm good) (hvolume : volume prm.dataLen t.phase = prm.perReader * prm.dataLen)
    (hstuck : t.pc = .done ∨ t.pc = .waitMutex ∨ ∃ v, t.pc = .reading v ∧ 0 < v.bytesRemaining) :
    t.pc = .done := by
  rcases hstuck with hpc | hpc | ⟨v, hpc, hleft⟩
  · exact hpc
  · rw [Reader.Ok, hpc] at ht
    rw [Reader.phase, hpc] at hvolume
    have hi : t.i = prm.perReader := Nat.eq_of_mul_eq_mul_right hpos hvolume
    exact absurd hi ht.ne
  · rw [Reader.Ok, hpc] at ht
    rw [Reader.phase, hpc] at hvolume
    simp only [volume, Sections.Phase.count, Sections.Phase.moved] at hvolume
    have hsum := ht.2.sum
    have hmul : (t.i + 1) * prm.dataLen ≤ _ := Nat.mul_le_mul_right prm.dataLen ht.1
    rw [Nat.succ_mul] at hmul
    omega

/-- **No deadlock**: with equal totals on both sides, when no process can move, all
have finished. -/
theorem allDone_of_quiescent (hpos : 0 < prm.dataLen) (hL : prm.dataLen < 2 ^ 31)
    (hcapacity : 0 < prm.capacity)
    (htotal : prm.numWriters * prm.perWriter = prm.numReaders * prm.perReader)
    (h : (program prm).Reachable s) (hq : (program prm).Quiescent Agent.isMoved s) :
    s.AllDone := by
  have hs := inv hL h
  have hwriter : ∀ p, writer s p (.moved 1) = none := fun p => hq (.writer p (.moved 1)) rfl
  have hreader : ∀ c, reader false s c (.moved 1) = none := fun c => hq (.reader c (.moved 1)) rfl
  have hvolumes := hs.volumes
  have hput : tally (volume prm.dataLen) s.writeSide.phase
      ≤ Fintype.card (Fin prm.numWriters) * (prm.perWriter * prm.dataLen) :=
    tally_le_card_mul fun p => (hs.locals.writer p).volume_le
  have heq : Fintype.card (Fin prm.numWriters) * (prm.perWriter * prm.dataLen)
      = Fintype.card (Fin prm.numReaders) * (prm.perReader * prm.dataLen) := by
    rw [Fintype.card_fin, Fintype.card_fin, ← Nat.mul_assoc, ← Nat.mul_assoc, htotal]
  -- a reader would go on if the pipe were not empty, up to the last byte
  have hempty : s.pipe = [] := by
    by_contra hne
    have hall : tally (volume prm.dataLen) s.readSide.phase
        = Fintype.card (Fin prm.numReaders) * (prm.perReader * prm.dataLen) := by
      have hconst : ∀ c, volume prm.dataLen (s.readSide.phase c) = prm.perReader * prm.dataLen :=
        fun c => Reader.volume_of_done (hs.locals.reader c) (readers_done hs hne hreader c)
      rw [tally, Finset.sum_congr rfl fun c _ => hconst c, Finset.sum_const, Finset.card_univ,
        smul_eq_mul]
    have hlen := List.length_pos_iff.mpr hne
    omega
  have hdone := writers_done hs (by rw [hempty]; exact hcapacity) hwriter
  refine ⟨hdone, fun c => ?_⟩
  have hall : tally (volume prm.dataLen) s.writeSide.phase
      = Fintype.card (Fin prm.numWriters) * (prm.perWriter * prm.dataLen) := by
    have hconst : ∀ p, volume prm.dataLen (s.writeSide.phase p) = prm.perWriter * prm.dataLen :=
      fun p => Writer.volume_of_done (hs.locals.writer p) (hdone p)
    rw [tally, Finset.sum_congr rfl fun p _ => hconst p, Finset.sum_const, Finset.card_univ,
      smul_eq_mul]
  rw [hempty, List.length_nil, Nat.add_zero, hall, heq] at hvolumes
  have hvolume := eq_of_card_mul_le_tally (f := volume prm.dataLen)
    (fun d => (hs.locals.reader d).volume_le) hvolumes.le c
  refine done_of_volume hpos (hs.locals.reader c) hvolume ?_
  rcases reader_eq_none (hreader c) with hc | ⟨hc, -⟩ | ⟨hc, -⟩
  · exact .inl hc
  · exact .inr (.inl hc)
  · exact .inr (.inr hc)

/-- **Message framing**: in every reachable state the sections of the two sides have the
same blocks; and the sections come to their end, as no reachable state is stuck before
all processes have finished, and all but the interrupted calls are bounded in number. -/
theorem message_framing (prm : Params) (hpos : 0 < prm.dataLen) (hL : prm.dataLen < 2 ^ 31)
    (hcapacity : 0 < prm.capacity)
    (htotal : prm.numWriters * prm.perWriter = prm.numReaders * prm.perReader) :
    (∀ s, (program prm).Reachable s → Framed s) ∧
    (∀ s, (program prm).Reachable s → (program prm).Quiescent Agent.isMoved s → s.AllDone) ∧
    ∀ s s' ts, (program prm).init s → (program prm).run s ts = some s' →
      ts.countP Agent.isMoved ≤ prm.numWriters * (prm.perWriter * (prm.dataLen + 4) + 1) +
        prm.numReaders * (prm.perReader * (prm.dataLen + 5) + 1) := by
  refine ⟨?_, ?_, ?_⟩
  · intro s h
    exact framed hpos hL h
  · intro s h hq
    exact allDone_of_quiescent hpos hL hcapacity htotal h hq
  · rintro s s' ts ⟨wdata, rdata, rfl⟩ hrun
    have hbound := Machine.run_countP_measure (P := Agent.isMoved) (μ := State.stepsLeft)
      (fun s t s' hstep hP => (step_stepsLeft hL hstep).2 hP)
      (fun s t s' hstep _ => (step_stepsLeft hL hstep).1) hrun
    have hstart : (start [] wdata rdata : State prm).stepsLeft =
        prm.numWriters * (prm.perWriter * (prm.dataLen + 4) + 1) +
          prm.numReaders * (prm.perReader * (prm.dataLen + 5) + 1) := by
      simp only [State.stepsLeft, tally, start, Writer.stepsLeft, Reader.stepsLeft,
        Finset.sum_const, Finset.card_univ, Fintype.card_fin, smul_eq_mul, Nat.sub_zero]
    omega

theorem message_framing_sizes :
    (∀ s, (program sizes).Reachable s → Framed s) ∧
    (∀ s, (program sizes).Reachable s → (program sizes).Quiescent Agent.isMoved s → s.AllDone) ∧
    ∀ s s' ts, (program sizes).init s → (program sizes).run s ts = some s' →
      ts.countP Agent.isMoved ≤ sizes.numWriters * (sizes.perWriter * (sizes.dataLen + 4) + 1) +
        sizes.numReaders * (sizes.perReader * (sizes.dataLen + 5) + 1) :=
  message_framing sizes (by decide) (by decide) (by decide) (by decide)

end Pipe
