/-
What the readers of Lab06/02 report.

* `Report.Received` — the message reported has been received whole;
* `report_received` — this is so exactly in the iterations in which one `read` has
  returned the whole message: after a short one the next bytes are stored too far
  on, and at the end of the stream `read_from_pipe` returns what it has, which
  `reader` does not look at;
* `report_stale` — an earlier message reported again, after the end of the stream.
-/
import SistemiDiCalcolo.PipeSections

open Function (update)
open AccessLog (Byte intBytes)

namespace Pipe

variable {prm : Params} {L : ℕ} {s s' : State prm} {p : Fin prm.numWriters} {c : Fin prm.numReaders}
  {ret : Ret} {eof : Bool}

/-- `read_from_pipe` has returned `sizeof(data)`, and every byte of `data` has been stored
in the iteration that reports it. -/
structure Report.Received (L : ℕ) (r : Report) : Prop where
  ret : r.ret = L
  stamp : ∀ a < L, r.stamp a = r.i + 1

/-- The buffer of a reader in `read_from_pipe`: nothing has been read yet, or the message
in one go, or the bytes after the first piece are left as they were. -/
inductive Reader.Filling (L : ℕ) (v : Locals) (t : Reader) : Prop
  | fresh : v.total = 0 → t.reads = [] → (∀ a, t.stamp a ≤ t.i) → Filling L v t
  | whole : v.total = L → t.reads = [L] → (∀ a < L, t.stamp a = t.i + 1) → Filling L v t
  | broken (a : ℕ) : a < L → a < 4 * v.total → t.stamp a ≠ t.i + 1 → t.reads ≠ [] →
      t.reads ≠ [L] → Filling L v t

/-- The stamps of a reader, at each of its points. -/
def Reader.Stamped (L : ℕ) (t : Reader) : Prop :=
  match t.pc with
  | .loop | .waitMutex | .done => ∀ a, t.stamp a ≤ t.i
  | .reading v => (∀ a, t.stamp a ≤ t.i + 1) ∧ t.Filling L v
  | .postMutex ret | .report ret =>
    (∀ a, t.stamp a ≤ t.i + 1) ∧
      ((ret = L ∧ ∀ a < L, t.stamp a = t.i + 1) ↔ t.reads = [L])

/-- The stamps of a buffer after a `read` of `n` bytes. -/
theorem stamp_le {stamp : Memory ℕ} {i : ℕ} (h : ∀ a, stamp a ≤ i + 1) (b n a : ℕ) :
    stamp.store b (List.replicate n (i + 1)) a ≤ i + 1 := by
  rw [Memory.store_replicate]
  split
  · exact le_rfl
  · exact h a

/-- What one `read` does to the buffer. -/
theorem Reader.Filling.read {v : Locals} {t : Reader} (ht : t.Filling L v) (hv : v.Ok L) {n : ℕ}
    (hpos : 0 < n) (hn : n ≤ v.bytesRemaining) {data : Memory Byte} :
    Reader.Filling L (v.moved n) { t with
      pc := .reading (v.moved n)
      data := data
      stamp := t.stamp.store v.address (List.replicate n (t.i + 1))
      reads := t.reads ++ [n] } := by
  have hsum := hv.sum
  have hindex := hv.index
  have hnonneg := hv.total
  cases ht with
  | fresh hzero hreads hold =>
    have haddress : v.address = 0 := by simp only [Locals.address]; omega
    rw [hreads, haddress, List.nil_append]
    by_cases hfull : n = L
    · -- the whole message at once
      refine .whole ?_ ?_ ?_
      · simp only [Locals.moved]
        omega
      · rw [hfull]
      · intro a ha
        show t.stamp.store 0 _ a = _
        rw [Memory.store_replicate, if_pos (by omega)]
    · -- the byte after the piece is below the address of the next piece
      refine .broken n (by omega) ?_ ?_ (List.cons_ne_nil n []) ?_
      · simp only [Locals.moved]
        omega
      · show t.stamp.store 0 _ n ≠ t.i + 1
        rw [Memory.store_replicate, if_neg (by omega)]
        have := hold n
        omega
      · intro heq
        exact hfull (List.head_eq_of_cons_eq heq)
  | whole htotal hreads hnew => omega
  | broken a ha hbelow hstamp hne hreads =>
    -- the gap stays below the address of the next piece
    refine .broken a ha ?_ ?_ ?_ ?_
    · simp only [Locals.moved]
      omega
    · show t.stamp.store v.address _ a ≠ _
      rwa [Memory.store_of_lt (by simp only [Locals.address]; omega)]
    · exact List.concat_ne_nil n t.reads
    · intro heq
      have hlen := congrArg List.length heq
      have := List.length_pos_iff.mpr hne
      simp only [List.length_append, List.length_singleton] at hlen
      omega

/-- What `read_from_pipe` returns tells, with the stamps, whether the message came whole. -/
theorem Reader.Filling.returns (hpos : 0 < L) {v : Locals} {t : Reader} (ht : t.Filling L v) :
    (v.total = L ∧ ∀ a < L, t.stamp a = t.i + 1) ↔ t.reads = [L] := by
  cases ht with
  | fresh hzero hreads _ =>
    rw [hreads]
    constructor
    · rintro ⟨htotal, -⟩
      omega
    · intro h
      cases h
  | whole htotal hreads hnew => exact iff_of_true ⟨htotal, hnew⟩ hreads
  | broken a ha _ hstamp _ hreads => exact iff_of_false (fun h => hstamp (h.2 a ha)) hreads

theorem ReaderStep.stamped (hpos : 0 < prm.dataLen) (h : ReaderStep eof s c ret s')
    (hok : (s.reader c).Ok prm (· ≤ prm.dataLen)) (hc : (s.reader c).Stamped prm.dataLen) :
    ∃ t, s'.reader = update s.reader c t ∧ t.Stamped prm.dataLen := by
  cases h with
  | begin _ hpc _ | stop _ hpc _ =>
    rw [Reader.Stamped, hpc] at hc
    exact ⟨_, rfl, hc⟩
  | lock _ hpc _ =>
    rw [Reader.Stamped, hpc] at hc
    exact ⟨_, rfl, fun a => (hc a).trans (Nat.le_succ _), .fresh rfl rfl hc⟩
  | eintr v hpc _ => exact ⟨_, (Function.update_eq_self c s.reader).symm, hc⟩
  | read v n hpc hn hle hlen =>
    rw [Reader.Stamped, hpc] at hc
    rw [Reader.Ok, hpc] at hok
    exact ⟨_, rfl, stamp_le hc.1 v.address n, hc.2.read hok.2 hn hle⟩
  | closed v hpc _ _ _ | ret _ v hpc _ =>
    rw [Reader.Stamped, hpc] at hc
    exact ⟨_, rfl, hc.1, hc.2.returns hpos⟩
  | unlock _ r hpc =>
    rw [Reader.Stamped, hpc] at hc
    exact ⟨_, rfl, hc⟩
  | report _ r hpc =>
    rw [Reader.Stamped, hpc] at hc
    exact ⟨_, rfl, hc.1⟩

/-- The reports so far, and the stamps of every reader. -/
structure ReportInv (s : State prm) : Prop where
  stamped : ∀ c, (s.reader c).Stamped prm.dataLen
  reports : ∀ r ∈ s.reports, r.Received prm.dataLen ↔ r.reads = [prm.dataLen]

theorem ReaderStep.reports (h : ReaderStep eof s c ret s')
    (hc : (s.reader c).Stamped prm.dataLen)
    (hs : ∀ r ∈ s.reports, r.Received prm.dataLen ↔ r.reads = [prm.dataLen]) :
    ∀ r ∈ s'.reports, r.Received prm.dataLen ↔ r.reads = [prm.dataLen] := by
  cases h with
  | report _ n hpc =>
    rw [Reader.Stamped, hpc] at hc
    intro r hr
    rcases List.mem_append.mp hr with hold | hnew
    · exact hs r hold
    · rw [List.mem_singleton.mp hnew]
      exact Iff.trans ⟨fun h => ⟨h.ret, h.stamp⟩, fun h => ⟨h.1, h.2⟩⟩ hc.2
  | _ => exact hs

theorem ReportInv.step (hpos : 0 < prm.dataLen) (hs : ReportInv s)
    (hlocals : LocalInv (· ≤ prm.dataLen) s) {t : Agent prm} (h : step eof s t = some s') :
    ReportInv s' := by
  cases t with
  | writer p ret =>
    obtain ⟨hreader, -, -, -, hreports⟩ := (writer_step h).frame
    constructor
    · rw [hreader]
      exact hs.stamped
    · rw [hreports]
      exact hs.reports
  | reader c ret =>
    have hstep := reader_step h
    obtain ⟨t, ht, hok⟩ := hstep.stamped hpos (hlocals.reader c) (hs.stamped c)
    refine ⟨?_, hstep.reports (hs.stamped c) hs.reports⟩
    rw [ht]
    exact (Function.forall_update_iff s.reader fun _ u => u.Stamped prm.dataLen).mpr
      ⟨hok, fun d _ => hs.stamped d⟩

/-- **What is reported as a message**: on a pipe closed after any stream of bytes, an
iteration has received the message it reports exactly when one `read` has returned it
whole. -/
theorem report_received (prm : Params) (hpos : 0 < prm.dataLen) (hL : prm.dataLen < 2 ^ 31)
    (stream : List Byte) (s : State { prm with numWriters := 0 })
    (h : (closedPipe prm stream).Reachable s) :
    ∀ r ∈ s.reports, r.Received prm.dataLen ↔ r.reads = [prm.dataLen] := by
  have hinv := h.invariant (I := fun s => LocalInv (· ≤ prm.dataLen) s ∧ ReportInv s) ?_ ?_
  · exact hinv.2.reports
  · rintro s ⟨wdata, rdata, rfl⟩
    refine ⟨localInv_start _ stream wdata rdata, ?_, fun r hr => absurd hr List.not_mem_nil⟩
    exact fun c a => le_rfl
  · rintro s t s' _ ⟨hlocals, hs⟩ hstep
    exact ⟨hlocals.step hL le_rfl (fun _ n hn => hn) hstep, hs.step hpos hlocals hstep⟩

/-! ### A reader at the end of the stream -/

/-- The steps of `reader` are its steps. -/
theorem ReaderStep.eq_some (h : ReaderStep eof s c ret s') : reader eof s c ret = some s' := by
  cases h with
  | begin _ hpc hi | stop _ hpc hi => simp only [reader, hpc, hi, if_true, if_false]
  | lock _ hpc hpos => simp only [reader, hpc, hpos, if_true]
  | eintr v hpc hleft => simp only [reader, hpc, hleft, if_true]
  | closed v hpc hleft heof hempty =>
    simp only [reader, hpc, hleft, heof, hempty, if_true, and_self]
  | read v n hpc hpos hn hlen =>
    obtain ⟨k, rfl⟩ := Nat.exists_eq_succ_of_ne_zero hpos.ne'
    have hleft : 0 < v.bytesRemaining := by omega
    simp only [reader, hpc, hleft, if_true, Nat.succ_eq_add_one, hn, hlen, and_self]
  | ret _ v hpc hover => simp only [reader, hpc, hover, if_false]
  | unlock _ r hpc | report _ r hpc => simp only [reader, hpc]

variable {stream : List Byte} {u u' : State { prm with numWriters := 0 }} {d : Fin prm.numReaders}

theorem ReaderStep.reachable (h : (closedPipe prm stream).Reachable u)
    (hstep : ReaderStep true u d ret u') : (closedPipe prm stream).Reachable u' :=
  h.step (.reader d ret) hstep.eq_some

/-- An iteration in which one `read` returns the whole message. -/
theorem iterate_whole (h : (closedPipe prm stream).Reachable u) (hpos : 0 < prm.dataLen)
    (hL : prm.dataLen < 2 ^ 31) (hpc : (u.reader d).pc = .loop)
    (hi : (u.reader d).i < prm.perReader) (hmutex : 0 < u.readMutex)
    (hlen : prm.dataLen ≤ u.pipe.length) :
    ∃ u', (closedPipe prm stream).Reachable u' ∧ u'.pipe = u.pipe.drop prm.dataLen ∧
      0 < u'.readMutex ∧ u'.reader d =
        { pc := .loop
          i := (u.reader d).i + 1
          data := (u.reader d).data.store 0 (u.pipe.take prm.dataLen)
          stamp := (u.reader d).stamp.store 0 (List.replicate prm.dataLen ((u.reader d).i + 1))
          reads := [prm.dataLen] } := by
  have hsum := (Locals.ok_init hL).sum
  have htotal : (Locals.init prm.dataLen).total = 0 := rfl
  have h₁ := ReaderStep.reachable h (.begin .eintr hpc hi)
  have h₂ := ReaderStep.reachable (d := d) h₁
    (.lock .eintr (by simp only [Function.update_self]) hmutex)
  have h₃ := ReaderStep.reachable (d := d) h₂
    (.read (.init prm.dataLen) prm.dataLen (by simp only [Function.update_self]) hpos
      (by show (prm.dataLen : ℤ) ≤ (Locals.init prm.dataLen).bytesRemaining; omega) hlen)
  have h₄ := ReaderStep.reachable (d := d) h₃
    (.ret .eintr ((Locals.init prm.dataLen).moved prm.dataLen)
      (by simp only [Function.update_self]) (by simp only [Locals.moved]; omega))
  have h₅ := ReaderStep.reachable (d := d) h₄
    (.unlock .eintr _ (by simp only [readReturns, Function.update_self]; rfl))
  have h₆ := ReaderStep.reachable (d := d) h₅
    (.report .eintr _ (by simp only [readReturns, Function.update_self]; rfl))
  refine ⟨_, h₆, rfl, Nat.succ_pos _, ?_⟩
  simp only [readReturns, Function.update_self, List.nil_append]
  rfl

/-- An iteration at the end of the stream reports the buffer as it is. -/
theorem iterate_closed (h : (closedPipe prm stream).Reachable u) (hpos : 0 < prm.dataLen)
    (hL : prm.dataLen < 2 ^ 31) (hpc : (u.reader d).pc = .loop)
    (hi : (u.reader d).i < prm.perReader) (hmutex : 0 < u.readMutex) (hempty : u.pipe = []) :
    ∃ u', (closedPipe prm stream).Reachable u' ∧ u'.reports = u.reports ++
      [⟨(u.reader d).i, intAt (u.reader d).data 0, is_msg_ok (u.reader d).data prm.msgElems, 0,
        (u.reader d).stamp, []⟩] := by
  have hsum := (Locals.ok_init hL).sum
  have htotal : (Locals.init prm.dataLen).total = 0 := rfl
  have h₁ := ReaderStep.reachable h (.begin .eintr hpc hi)
  have h₂ := ReaderStep.reachable (d := d) h₁
    (.lock .eintr (by simp only [Function.update_self]) hmutex)
  have h₃ := ReaderStep.reachable (d := d) h₂
    (.closed (.init prm.dataLen) (by simp only [Function.update_self])
      (by show 0 < (Locals.init prm.dataLen).bytesRemaining; omega) rfl hempty)
  have h₄ := ReaderStep.reachable (d := d) h₃
    (.unlock .eintr _ (by simp only [readReturns, Function.update_self]; rfl))
  have h₅ := ReaderStep.reachable (d := d) h₄
    (.report .eintr _ (by simp only [readReturns, Function.update_self]; rfl))
  refine ⟨_, h₅, ?_⟩
  simp only [readReturns, Function.update_self]
  rfl

/-- All elements of a buffer of zeros are equal. -/
theorem is_msg_ok_of_zero {data : Memory Byte} {n : ℕ} (h : ∀ a < 4 * n, data a = 0) :
    is_msg_ok data n = true := by
  have hint : ∀ i < n, intAt data (4 * i) = 0 := by
    intro i hi
    rw [intAt, h _ (by omega), h _ (by omega), h _ (by omega), h _ (by omega)]
    rfl
  rw [is_msg_ok, List.all_eq_true]
  intro i hi
  have hi := List.mem_range.mp hi
  rw [decide_eq_true_iff, hint i hi]
  exact hint 0 (Nat.zero_lt_of_lt hi)

/-- The only message is reported twice: the second time nothing has been received, and
`is_msg_ok` finds what the first has left. -/
theorem report_stale (prm : Params) (hpos : 0 < prm.dataLen) (hL : prm.dataLen < 2 ^ 31)
    (hreaders : 0 < prm.numReaders) (hi : 1 < prm.perReader) :
    ∃ s, (closedPipe prm (List.replicate prm.dataLen 0)).Reachable s ∧
      ∃ r ∈ s.reports, r.i = 1 ∧ r.ret = 0 ∧ r.ok = true ∧ ∀ a < prm.dataLen, r.stamp a = 1 := by
  have hstart : (closedPipe prm (List.replicate prm.dataLen 0)).Reachable
      (start (List.replicate prm.dataLen 0) (fun _ _ => 0) fun _ _ => 0) := .init ⟨_, _, rfl⟩
  obtain ⟨u, hu, hpipe, hmutex, hreader⟩ := iterate_whole (d := ⟨0, hreaders⟩) hstart hpos hL rfl
    (Nat.zero_lt_of_lt hi) Nat.one_pos (List.length_replicate ..).ge
  obtain ⟨s, hs, hreports⟩ := iterate_closed hu hpos hL (congrArg Reader.pc hreader)
    (by rw [hreader]; exact hi) hmutex (by rw [hpipe]; simp [start])
  refine ⟨s, hs, _, hreports ▸ List.mem_append_right _ (List.mem_singleton_self _), ?_⟩
  rw [hreader]
  refine ⟨rfl, rfl, is_msg_ok_of_zero fun a ha => ?_, fun a ha => ?_⟩
  · show (Memory.store (fun _ => 0) 0 (List.take _ (List.replicate _ 0)) : Memory Byte) a = 0
    rw [List.take_replicate, Memory.store_replicate, ite_self]
  · show (Memory.store (fun _ => 0) 0 (List.replicate _ 1) : Memory ℕ) a = 1
    rw [Memory.store_replicate, if_pos ⟨Nat.zero_le a, (Nat.zero_add _).symm ▸ ha⟩]

theorem report_stale_sizes :
    ∃ s, (closedPipe sizes (List.replicate sizes.dataLen 0)).Reachable s ∧
      ∃ r ∈ s.reports, r.i = 1 ∧ r.ret = 0 ∧ r.ok = true ∧ ∀ a < sizes.dataLen, r.stamp a = 1 :=
  report_stale sizes (by decide) (by decide) (by decide) (by decide)

/-- That report is not the message received. -/
theorem report_received_sizes :
    ∃ s, (closedPipe sizes (List.replicate sizes.dataLen 0)).Reachable s ∧
      ∃ r ∈ s.reports, r.i = 1 ∧ ¬ r.Received sizes.dataLen ∧
        (r.Received sizes.dataLen ↔ r.reads = [sizes.dataLen]) := by
  obtain ⟨s, hs, r, hr, hi, -, -, hstamp⟩ := report_stale sizes (by decide) (by decide)
    (by decide) (by decide)
  refine ⟨s, hs, r, hr, hi, ?_, report_received sizes (by decide) (by decide) _ s hs r hr⟩
  intro h
  have := h.stamp 0 (by decide)
  rw [hstamp 0 (by decide), hi] at this
  omega

end Pipe
