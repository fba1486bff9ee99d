/-
The two sides of the pipe of Lab06/02 as sections under a lock.

* `Writer.Ok`, `Reader.Ok` — the loop counters of a process, at each of its points;
* `WriterStep.side`, `ReaderStep.side` — the mutexes, and the lengths of the blocks;
* `WriterStep.flow`, `ReaderStep.flow` — what has been put into the pipe is what
  has been taken out, and what the pipe holds.
-/
import SistemiDiCalcolo.Pipe

open Function (update)
open AccessLog (Byte intBytes)

namespace Pipe

variable {prm : Params} {L : ℕ} {good : ℕ → Prop}

/-! ### The loop counters -/

/-- The counters of the transfer of a message of `L` bytes. -/
structure Locals.Ok (L : ℕ) (v : Locals) : Prop where
  index : v.index = v.total
  sum : v.total + v.bytesRemaining = L
  total : 0 ≤ v.total
  remaining : 0 ≤ v.bytesRemaining

theorem Locals.ok_init (hL : L < 2 ^ 31) : (Locals.init L).Ok L := by
  have hint : (BitVec.ofNat 32 L).toInt = L := toInt_ofNat_of_lt hL
  refine ⟨rfl, ?_, le_rfl, ?_⟩
  · show 0 + (BitVec.ofNat 32 L).toInt = L
    rw [hint, Int.zero_add]
  · show 0 ≤ (BitVec.ofNat 32 L).toInt
    rw [hint]
    exact Int.natCast_nonneg L

theorem Locals.Ok.moved {v : Locals} (hv : v.Ok L) {n : ℕ} (hn : n ≤ v.bytesRemaining) :
    (v.moved n).Ok L := by
  obtain ⟨hindex, hsum, htotal, hremaining⟩ := hv
  refine ⟨?_, ?_, ?_, ?_⟩ <;> simp only [Locals.moved] <;> omega

/-- When the loop is over, the whole message has been moved. -/
theorem Locals.Ok.total_eq {v : Locals} (hv : v.Ok L) (hover : ¬ 0 < v.bytesRemaining) :
    v.total = L := by
  have := hv.sum
  have := hv.remaining
  omega

theorem Locals.Ok.toNat_le {v : Locals} (hv : v.Ok L) : v.total.toNat ≤ L := by
  have := hv.sum
  have := hv.remaining
  omega

/-- The point of a writer, its iteration and the counters of `write_to_pipe`. -/
def Writer.Ok (prm : Params) (t : Writer) : Prop :=
  match t.pc with
  | .loop => t.i ≤ prm.perWriter
  | .waitMutex => t.i < prm.perWriter
  | .writing v => t.i < prm.perWriter ∧ v.Ok prm.dataLen
  | .postMutex ret => t.i < prm.perWriter ∧ ret = prm.dataLen
  | .done => t.i = prm.perWriter

/-- The same for a reader, `good` being the lengths of what `read_from_pipe` may take. -/
def Reader.Ok (prm : Params) (good : ℕ → Prop) (t : Reader) : Prop :=
  match t.pc with
  | .loop => t.i ≤ prm.perReader
  | .waitMutex => t.i < prm.perReader
  | .reading v => t.i < prm.perReader ∧ v.Ok prm.dataLen
  | .postMutex ret | .report ret => t.i < prm.perReader ∧ 0 ≤ ret ∧ good ret.toNat
  | .done => t.i = prm.perReader

variable {s s' : State prm} {p : Fin prm.numWriters} {c : Fin prm.numReaders} {ret : Ret}
  {eof : Bool}

/-! ### What a step can do -/

/-- The steps of `writer`. -/
inductive WriterStep (s : State prm) (p : Fin prm.numWriters) : Ret → State prm → Prop
  | create (ret : Ret) : (s.writer p).pc = .loop → (s.writer p).i < prm.perWriter →
      WriterStep s p ret { s with writer := update s.writer p { s.writer p with
        pc := .waitMutex
        data := create_msg (s.writer p).data (BitVec.ofNat 32 (s.writer p).i) prm.msgElems } }
  | stop (ret : Ret) : (s.writer p).pc = .loop → ¬ (s.writer p).i < prm.perWriter →
      WriterStep s p ret { s with writer := update s.writer p { s.writer p with pc := .done } }
  | lock (ret : Ret) : (s.writer p).pc = .waitMutex → 0 < s.writeMutex →
      WriterStep s p ret { s with
        writeMutex := s.writeMutex - 1
        writer := update s.writer p { s.writer p with pc := .writing (.init prm.dataLen) } }
  | eintr (v : Locals) : (s.writer p).pc = .writing v → 0 < v.bytesRemaining →
      WriterStep s p .eintr s
  | write (v : Locals) (n : ℕ) : (s.writer p).pc = .writing v → 0 < n → n ≤ v.bytesRemaining →
      s.pipe.length + n ≤ prm.capacity → WriterStep s p (.moved n) { s with
        pipe := s.pipe ++ (s.writer p).data.load v.address n
        writing := s.writing ++ (s.writer p).data.load v.address n
        writer := update s.writer p { s.writer p with pc := .writing (v.moved n) } }
  | ret (ret : Ret) (v : Locals) : (s.writer p).pc = .writing v → ¬ 0 < v.bytesRemaining →
      WriterStep s p ret { s with
        written := s.written ++ [s.writing]
        writing := []
        writer := update s.writer p { s.writer p with pc := .postMutex v.total } }
  | unlock (ret : Ret) (r : ℤ) : (s.writer p).pc = .postMutex r →
      WriterStep s p ret { s with
        writeMutex := s.writeMutex + 1
        writer := update s.writer p { s.writer p with pc := .loop, i := (s.writer p).i + 1 } }

theorem writer_step (h : writer s p ret = some s') : WriterStep s p ret s' := by
  unfold writer at h
  cases hpc : (s.writer p).pc with
  | loop =>
    simp only [hpc] at h
    split at h <;> cases h
    · next hi => exact .create ret hpc hi
    · next hi => exact .stop ret hpc hi
  | waitMutex =>
    simp only [hpc] at h
    split at h <;> cases h
    next hpos => exact .lock ret hpc hpos
  | writing v =>
    simp only [hpc] at h
    split at h
    · next hleft =>
      cases ret with
      | eintr =>
        cases h
        exact .eintr v hpc hleft
      | moved n =>
        simp only at h
        split at h <;> cases h
        next hn => exact .write v n hpc hn.1 hn.2.1 hn.2.2
    · next hover =>
      cases h
      exact .ret ret v hpc hover
  | postMutex r =>
    simp only [hpc] at h
    cases h
    exact .unlock ret r hpc
  | done =>
    simp only [hpc] at h
    cases h

/-- The steps of `reader`. -/
inductive ReaderStep (eof : Bool) (s : State prm) (c : Fin prm.numReaders) :
    Ret → State prm → Prop
  | begin (ret : Ret) : (s.reader c).pc = .loop → (s.reader c).i < prm.perReader →
      ReaderStep eof s c ret { s with
        reader := update s.reader c { s.reader c with pc := .waitMutex } }
  | stop (ret : Ret) : (s.reader c).pc = .loop → ¬ (s.reader c).i < prm.perReader →
      ReaderStep eof s c ret { s with
        reader := update s.reader c { s.reader c with pc := .done } }
  | lock (ret : Ret) : (s.reader c).pc = .waitMutex → 0 < s.readMutex →
      ReaderStep eof s c ret { s with
        readMutex := s.readMutex - 1
        reader := update s.reader c { s.reader c with
          pc := .reading (.init prm.dataLen)
          reads := [] } }
  | eintr (v : Locals) : (s.reader c).pc = .reading v → 0 < v.bytesRemaining →
      ReaderStep eof s c .eintr s
  | closed (v : Locals) : (s.reader c).pc = .reading v → 0 < v.bytesRemaining → eof = true →
      s.pipe = [] → ReaderStep eof s c (.moved 0) (readReturns s c v)
  | read (v : Locals) (n : ℕ) : (s.reader c).pc = .reading v → 0 < n → n ≤ v.bytesRemaining →
      n ≤ s.pipe.length →
      ReaderStep eof s c (.moved n) { s with
        pipe := s.pipe.drop n
        taking := s.taking ++ s.pipe.take n
        reader := update s.reader c { s.reader c with
          pc := .reading (v.moved n)
          data := (s.reader c).data.store v.address (s.pipe.take n)
          stamp := (s.reader c).stamp.store v.address
            (List.replicate n ((s.reader c).i + 1))
          reads := (s.reader c).reads ++ [n] } }
  | ret (ret : Ret) (v : Locals) : (s.reader c).pc = .reading v → ¬ 0 < v.bytesRemaining →
      ReaderStep eof s c ret (readReturns s c v)
  | unlock (ret : Ret) (r : ℤ) : (s.reader c).pc = .postMutex r →
      ReaderStep eof s c ret { s with
        readMutex := s.readMutex + 1
        reader := update s.reader c { s.reader c with pc := .report r } }
  | report (ret : Ret) (r : ℤ) : (s.reader c).pc = .report r →
      ReaderStep eof s c ret { s with
        reports := s.reports ++ [⟨(s.reader c).i, intAt (s.reader c).data 0,
          is_msg_ok (s.reader c).data prm.msgElems, r, (s.reader c).stamp,
          (s.reader c).reads⟩]
        reader := update s.reader c { s.reader c with pc := .loop, i := (s.reader c).i + 1 } }

theorem reader_step (h : reader eof s c ret = some s') : ReaderStep eof s c ret s' := by
  unfold reader at h
  cases hpc : (s.reader c).pc with
  | loop =>
    simp only [hpc] at h
    by_cases hi : (s.reader c).i < prm.perReader
    · rw [if_pos hi] at h
      cases h
      exact .begin ret hpc hi
    · rw [if_neg hi] at h
      cases h
      exact .stop ret hpc hi
  | waitMutex =>
    simp only [hpc] at h
    split at h <;> cases h
    next hpos => exact .lock ret hpc hpos
  | reading v =>
    simp only [hpc] at h
    split at h
    · next hpos =>
      match ret with
      | .eintr =>
        cases h
        exact .eintr v hpc hpos
      | .moved 0 =>
        simp only at h
        split at h <;> cases h
        next hempty => exact .closed v hpc hpos hempty.1 hempty.2
      | .moved (n + 1) =>
        simp only at h
        split at h <;> cases h
        next hn => exact .read v (n + 1) hpc (Nat.succ_pos n) hn.1 hn.2
    · next hover =>
      cases h
      exact .ret ret v hpc hover
  | postMutex r =>
    simp only [hpc] at h
    cases h
    exact .unlock ret r hpc
  | report r =>
    simp only [hpc] at h
    cases h
    exact .report ret r hpc
  | done =>
    simp only [hpc] at h
    cases h

/-- A step of one side leaves the other alone. -/
theorem WriterStep.frame (h : WriterStep s p ret s') :
    s'.reader = s.reader ∧ s'.readMutex = s.readMutex ∧ s'.taken = s.taken ∧
      s'.taking = s.taking ∧ s'.reports = s.reports := by
  cases h <;> exact ⟨rfl, rfl, rfl, rfl, rfl⟩

theorem ReaderStep.frame (h : ReaderStep eof s c ret s') :
    s'.writer = s.writer ∧ s'.writeMutex = s.writeMutex ∧ s'.written = s.written ∧
      s'.writing = s.writing := by
  cases h <;> exact ⟨rfl, rfl, rfl, rfl⟩

theorem WriterStep.ok (hL : prm.dataLen < 2 ^ 31) (h : WriterStep s p ret s')
    (hp : (s.writer p).Ok prm) : ∃ t, s'.writer = update s.writer p t ∧ t.Ok prm := by
  cases h with
  | create _ hpc hi => exact ⟨_, rfl, hi⟩
  | stop _ hpc hi =>
    rw [Writer.Ok, hpc] at hp
    exact ⟨_, rfl, Nat.le_antisymm hp (Nat.le_of_not_lt hi)⟩
  | lock _ hpc _ =>
    rw [Writer.Ok, hpc] at hp
    exact ⟨_, rfl, hp, Locals.ok_init hL⟩
  | eintr v hpc _ => exact ⟨_, (Function.update_eq_self p s.writer).symm, hp⟩
  | write v n hpc _ hn _ =>
    rw [Writer.Ok, hpc] at hp
    exact ⟨_, rfl, hp.1, hp.2.moved hn⟩
  | ret _ v hpc hover =>
    rw [Writer.Ok, hpc] at hp
    exact ⟨_, rfl, hp.1, hp.2.total_eq hover⟩
  | unlock _ r hpc =>
    rw [Writer.Ok, hpc] at hp
    exact ⟨_, rfl, hp.1⟩

theorem ReaderStep.ok (hL : prm.dataLen < 2 ^ 31) (hfull : good prm.dataLen)
    (heof : eof = true → ∀ n ≤ prm.dataLen, good n)
    (h : ReaderStep eof s c ret s') (hc : (s.reader c).Ok prm good) :
    ∃ t, s'.reader = update s.reader c t ∧ t.Ok prm good := by
  cases h with
  | begin _ hpc hi => exact ⟨_, rfl, hi⟩
  | stop _ hpc hi =>
    rw [Reader.Ok, hpc] at hc
    exact ⟨_, rfl, Nat.le_antisymm hc (Nat.le_of_not_lt hi)⟩
  | lock _ hpc _ =>
    rw [Reader.Ok, hpc] at hc
    exact ⟨_, rfl, hc, Locals.ok_init hL⟩
  | eintr v hpc _ => exact ⟨_, (Function.update_eq_self c s.reader).symm, hc⟩
  | closed v hpc _ hopen _ =>
    rw [Reader.Ok, hpc] at hc
    exact ⟨_, rfl, hc.1, hc.2.total, heof hopen _ hc.2.toNat_le⟩
  | read v n hpc _ hn _ =>
    rw [Reader.Ok, hpc] at hc
    exact ⟨_, rfl, hc.1, hc.2.moved hn⟩
  | ret _ v hpc hover =>
    rw [Reader.Ok, hpc] at hc
    refine ⟨_, rfl, hc.1, hc.2.total, ?_⟩
    rw [hc.2.total_eq hover, Int.toNat_natCast]
    exact hfull
  | unlock _ r hpc =>
    rw [Reader.Ok, hpc] at hc
    exact ⟨_, rfl, hc⟩
  | report _ r hpc =>
    rw [Reader.Ok, hpc] at hc
    exact ⟨_, rfl, hc.1⟩

/-- Every process is where its counters say. -/
structure LocalInv (good : ℕ → Prop) (s : State prm) : Prop where
  writer : ∀ p, (s.writer p).Ok prm
  reader : ∀ c, (s.reader c).Ok prm good

theorem LocalInv.step (hL : prm.dataLen < 2 ^ 31) (hfull : good prm.dataLen)
    (heof : eof = true → ∀ n ≤ prm.dataLen, good n) (hs : LocalInv good s)
    {t : Agent prm} (h : step eof s t = some s') : LocalInv good s' := by
  cases t with
  | writer p ret =>
    obtain ⟨t, ht, hok⟩ := (writer_step h).ok hL (hs.writer p)
    constructor
    · rw [ht]
      exact (Function.forall_update_iff s.writer fun _ u => u.Ok prm).mpr
        ⟨hok, fun q _ => hs.writer q⟩
    · rw [(writer_step h).frame.1]
      exact hs.reader
  | reader c ret =>
    obtain ⟨t, ht, hok⟩ := (reader_step h).ok hL hfull heof (hs.reader c)
    constructor
    · rw [(reader_step h).frame.1]
      exact hs.writer
    · rw [ht]
      exact (Function.forall_update_iff s.reader fun _ u => u.Ok prm good).mpr
        ⟨hok, fun d _ => hs.reader d⟩

theorem localInv_start (good : ℕ → Prop) (stream : List Byte)
    (wdata : Fin prm.numWriters → Memory Byte) (rdata : Fin prm.numReaders → Memory Byte) :
    LocalInv good (start stream wdata rdata) where
  writer _ := Nat.zero_le _
  reader _ := Nat.zero_le _

/-! ### The mutexes and the blocks -/

def Writer.phase (t : Writer) : Sections.Phase :=
  match t.pc with
  | .loop | .waitMutex | .done => .out t.i
  | .writing v => .moving t.i v.total.toNat
  | .postMutex _ => .leaving (t.i + 1)

def Reader.phase (t : Reader) : Sections.Phase :=
  match t.pc with
  | .loop | .waitMutex | .done => .out t.i
  | .reading v => .moving t.i v.total.toNat
  | .postMutex _ => .leaving (t.i + 1)
  | .report _ => .out (t.i + 1)

/-- The writers, as sections under `write_mutex`. -/
def State.writeSide (s : State prm) : Sections (Fin prm.numWriters) Byte where
  lock := s.writeMutex
  phase := Writer.phase ∘ s.writer
  current := s.writing
  finished := s.written

/-- The readers, as sections under `read_mutex`. -/
def State.readSide (s : State prm) : Sections (Fin prm.numReaders) Byte where
  lock := s.readMutex
  phase := Reader.phase ∘ s.reader
  current := s.taking
  finished := s.taken

/-- A piece of a message moves the counter by its length. -/
theorem Locals.Ok.toNat_moved {v : Locals} (hv : v.Ok L) (n : ℕ) :
    (v.moved n).total.toNat = v.total.toNat + n := by
  have := hv.total
  simp only [Locals.moved]
  omega

theorem WriterStep.side (h : WriterStep s p ret s') (hp : (s.writer p).Ok prm) :
    s'.writeSide = s.writeSide ∨
      Sections.Step (· = prm.dataLen) s.writeSide s'.writeSide := by
  cases h with
  | create _ hpc _ | stop _ hpc _ =>
    -- outside the section: the phase is the same
    left
    simp only [State.writeSide, Function.comp_update]
    congr 1
    exact Function.update_eq_self_iff.mpr (by simp only [Function.comp_apply, Writer.phase, hpc])
  | lock _ hpc hpos =>
    refine .inr (.of_eq (.enter p (s.writer p).i ?_ hpos) ?_)
    · simp only [State.writeSide, Function.comp_apply, Writer.phase, hpc]
    · simp only [State.writeSide, Function.comp_update]
      rfl
  | eintr v hpc _ => exact .inl rfl
  | write v n hpc _ hn _ =>
    rw [Writer.Ok, hpc] at hp
    refine .inr (.of_eq (.move p (s.writer p).i v.total.toNat
      ((s.writer p).data.load v.address n) ?_) ?_)
    · simp only [State.writeSide, Function.comp_apply, Writer.phase, hpc]
    · simp only [State.writeSide, Function.comp_update, Writer.phase, hp.2.toNat_moved,
        Memory.length_load]
  | ret _ v hpc hover =>
    rw [Writer.Ok, hpc] at hp
    refine .inr (.of_eq (.finish p (s.writer p).i v.total.toNat ?_ ?_) ?_)
    · simp only [State.writeSide, Function.comp_apply, Writer.phase, hpc]
    · rw [hp.2.total_eq hover, Int.toNat_natCast]
    · simp only [State.writeSide, Function.comp_update, Writer.phase]
  | unlock _ r hpc =>
    refine .inr (.of_eq (.leave p ((s.writer p).i + 1) ?_) ?_)
    · simp only [State.writeSide, Function.comp_apply, Writer.phase, hpc]
    · simp only [State.writeSide, Function.comp_update, Writer.phase]

/-- `read_from_pipe` returns, with `v` in its counters. -/
theorem readReturns_side {v : Locals} (hpc : (s.reader c).pc = .reading v)
    (hgood : good v.total.toNat) :
    Sections.Step good s.readSide (readReturns s c v).readSide := by
  refine .of_eq (.finish c (s.reader c).i v.total.toNat ?_ hgood) ?_
  · simp only [State.readSide, Function.comp_apply, Reader.phase, hpc]
  · simp only [State.readSide, readReturns, Function.comp_update, Reader.phase]

theorem ReaderStep.side (hfull : good prm.dataLen)
    (heof : eof = true → ∀ n ≤ prm.dataLen, good n) (h : ReaderStep eof s c ret s')
    (hc : (s.reader c).Ok prm good) :
    s'.readSide = s.readSide ∨ Sections.Step good s.readSide s'.readSide := by
  cases h with
  | begin _ hpc _ | stop _ hpc _ | report _ r hpc =>
    -- outside the section: the phase is the same
    left
    simp only [State.readSide, Function.comp_update]
    congr 1
    exact Function.update_eq_self_iff.mpr (by simp only [Function.comp_apply, Reader.phase, hpc])
  | lock _ hpc hpos =>
    refine .inr (.of_eq (.enter c (s.reader c).i ?_ hpos) ?_)
    · simp only [State.readSide, Function.comp_apply, Reader.phase, hpc]
    · simp only [State.readSide, Function.comp_update]
      rfl
  | eintr v hpc _ => exact .inl rfl
  | closed v hpc _ hopen _ =>
    rw [Reader.Ok, hpc] at hc
    -- the end of the stream: whatever has been read is the block
    exact .inr (readReturns_side hpc (heof hopen _ hc.2.toNat_le))
  | read v n hpc _ hn hle =>
    rw [Reader.Ok, hpc] at hc
    refine .inr (.of_eq (.move c (s.reader c).i v.total.toNat (s.pipe.take n) ?_) ?_)
    · simp only [State.readSide, Function.comp_apply, Reader.phase, hpc]
    · simp only [State.readSide, Function.comp_update, Reader.phase, hc.2.toNat_moved,
        List.length_take, Nat.min_eq_left hle]
  | ret _ v hpc hover =>
    rw [Reader.Ok, hpc] at hc
    refine .inr (readReturns_side hpc ?_)
    rw [hc.2.total_eq hover, Int.toNat_natCast]
    exact hfull
  | unlock _ r hpc =>
    refine .inr (.of_eq (.leave c ((s.reader c).i + 1) ?_) ?_)
    · simp only [State.readSide, Function.comp_apply, Reader.phase, hpc]
    · simp only [State.readSide, Function.comp_update, Reader.phase]

/-- The processes, the two mutexes with their blocks, and the bytes: what has been put
into the pipe is what has been taken out of it and what it holds. -/
structure Inv (good : ℕ → Prop) (stream : List Byte) (s : State prm) : Prop where
  locals : LocalInv good s
  writeSide : s.writeSide.Inv (· = prm.dataLen)
  readSide : s.readSide.Inv good
  flow : stream ++ (s.written.flatten ++ s.writing) = s.taken.flatten ++ s.taking ++ s.pipe

theorem inv_start (stream : List Byte) (wdata : Fin prm.numWriters → Memory Byte)
    (rdata : Fin prm.numReaders → Memory Byte) : Inv good stream (start stream wdata rdata) := by
  have hzero : ∀ {ι : Type} [Fintype ι] (f : Sections.Phase → ℕ), f (.out 0) = 0 →
      tally f (fun _ : ι => Sections.Phase.out 0) = 0 :=
    fun f hf => tally_eq_zero.mpr fun _ => hf
  refine ⟨localInv_start good stream wdata rdata, ?_, ?_, ?_⟩
  · refine ⟨?_, ?_, fun xs hxs => absurd hxs List.not_mem_nil, ?_⟩
    · exact congrArg (1 + ·) (hzero Sections.Phase.inside rfl)
    · exact (hzero Sections.Phase.moved rfl).symm
    · exact (hzero Sections.Phase.count rfl).symm
  · refine ⟨?_, ?_, fun xs hxs => absurd hxs List.not_mem_nil, ?_⟩
    · exact congrArg (1 + ·) (hzero Sections.Phase.inside rfl)
    · exact (hzero Sections.Phase.moved rfl).symm
    · exact (hzero Sections.Phase.count rfl).symm
  · show stream ++ ([] ++ []) = [] ++ [] ++ stream
    simp

theorem WriterStep.flow (h : WriterStep s p ret s') {stream : List Byte}
    (hs : stream ++ (s.written.flatten ++ s.writing) = s.taken.flatten ++ s.taking ++ s.pipe) :
    stream ++ (s'.written.flatten ++ s'.writing)
      = s'.taken.flatten ++ s'.taking ++ s'.pipe := by
  cases h with
  | write v n hpc _ hn _ =>
    show stream ++ (s.written.flatten ++ (s.writing ++ _)) = _ ++ (s.pipe ++ _)
    rw [← List.append_assoc s.written.flatten, ← List.append_assoc stream, hs, List.append_assoc]
  | ret _ v hpc hover =>
    show stream ++ ((s.written ++ [s.writing]).flatten ++ []) = _
    rw [List.flatten_append, List.flatten_singleton, List.append_nil]
    exact hs
  | _ => exact hs

theorem readReturns_flow {v : Locals} {stream : List Byte}
    (hs : stream ++ (s.written.flatten ++ s.writing) = s.taken.flatten ++ s.taking ++ s.pipe) :
    stream ++ ((readReturns s c v).written.flatten ++ (readReturns s c v).writing)
      = (readReturns s c v).taken.flatten ++ (readReturns s c v).taking
        ++ (readReturns s c v).pipe := by
  show _ = (s.taken ++ [s.taking]).flatten ++ [] ++ s.pipe
  rw [List.flatten_append, List.flatten_singleton, List.append_nil]
  exact hs

theorem ReaderStep.flow (h : ReaderStep eof s c ret s') {stream : List Byte}
    (hs : stream ++ (s.written.flatten ++ s.writing) = s.taken.flatten ++ s.taking ++ s.pipe) :
    stream ++ (s'.written.flatten ++ s'.writing)
      = s'.taken.flatten ++ s'.taking ++ s'.pipe := by
  cases h with
  | read v n hpc _ hn hle =>
    show _ = s.taken.flatten ++ (s.taking ++ s.pipe.take n) ++ s.pipe.drop n
    have hpipe : s.taken.flatten ++ (s.taking ++ s.pipe.take n) ++ s.pipe.drop n
        = s.taken.flatten ++ s.taking ++ s.pipe := by
      rw [List.append_assoc, List.append_assoc, List.take_append_drop, List.append_assoc]
    exact hs.trans hpipe.symm
  | closed v _ _ _ _ | ret _ v _ _ => exact readReturns_flow hs
  | _ => exact hs

theorem Inv.step {stream : List Byte} (hL : prm.dataLen < 2 ^ 31) (hfull : good prm.dataLen)
    (heof : eof = true → ∀ n ≤ prm.dataLen, good n) (hs : Inv good stream s) {t : Agent prm}
    (h : step eof s t = some s') : Inv good stream s' := by
  have hlocals := hs.locals.step hL hfull heof h
  cases t with
  | writer p ret =>
    have hstep := writer_step h
    obtain ⟨hreader, hmutex, htaken, htaking, -⟩ := hstep.frame
    refine ⟨hlocals, ?_, ?_, hstep.flow hs.flow⟩
    · rcases hstep.side (hs.locals.writer p) with heq | hside
      · rw [heq]
        exact hs.writeSide
      · exact hs.writeSide.step hside
    · have heq : s'.readSide = s.readSide := by
        simp only [State.readSide, hreader, hmutex, htaken, htaking]
      rw [heq]
      exact hs.readSide
  | reader c ret =>
    have hstep := reader_step h
    obtain ⟨hwriter, hmutex, hwritten, hwriting⟩ := hstep.frame
    refine ⟨hlocals, ?_, ?_, hstep.flow hs.flow⟩
    · have heq : s'.writeSide = s.writeSide := by
        simp only [State.writeSide, hwriter, hmutex, hwritten, hwriting]
      rw [heq]
      exact hs.writeSide
    · rcases hstep.side hfull heof (hs.locals.reader c) with heq | hside
      · rw [heq]
        exact hs.readSide
      · exact hs.readSide.step hside

end Pipe
