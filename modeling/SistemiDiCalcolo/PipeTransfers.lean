/-
`read_from_pipe` and `write_to_pipe` of Lab06/02, each for one whole call.

A schedule lists what the calls of `read` or `write` return, one after another; the
function returns when its loop is over, right after the last of them.

* `read_from_pipe`, `write_to_pipe` — the two loops; beside their variables, the range of
  `data` that each call was given;
* `reader_read`, `writer_write` — a pass of the loops is a step of the processes;
* `read_exact_iff`, `write_exact_iff` — they move the right bytes, and stay inside of
  `data`, if the first call that is not interrupted moves them all.
-/
import SistemiDiCalcolo.PipeSections

open Function (update)
open AccessLog (Byte)

namespace Pipe

/-- A range of `data`: where it begins, in bytes, and how long it is. -/
structure Range where
  first : ℕ
  count : ℕ
  deriving DecidableEq, Repr

/-- The range lies inside of `data[0..L)`. -/
def Range.Within (L : ℕ) (r : Range) : Prop := r.first + r.count ≤ L

/-- The range that `read` or `write` is given. -/
def Locals.range (v : Locals) : Range := ⟨v.address, v.bytesRemaining.toNat⟩

theorem Locals.init_eq {L : ℕ} (hL : L < 2 ^ 31) : Locals.init L = ⟨0, L, 0⟩ := by
  have hsum := (ok_init hL).sum
  have htotal : (Locals.init L).total = 0 := rfl
  have hremaining : (Locals.init L).bytesRemaining = L := by omega
  exact congrArg (fun b => (⟨0, b, 0⟩ : Locals)) hremaining

/-- The first call is given all of `data`. -/
theorem Locals.range_init {L : ℕ} (hL : L < 2 ^ 31) : (Locals.init L).range = ⟨0, L⟩ := by
  rw [init_eq hL]
  rfl

/-- After a short transfer the next call is given a range that reaches too far: the offset
counts bytes, but the pointer counts `int`s. -/
theorem Locals.not_within_moved {L n : ℕ} (hL : L < 2 ^ 31) (hpos : 0 < n) (hn : n < L) :
    ¬ ((Locals.init L).moved n).range.Within L := by
  rw [init_eq hL]
  simp only [Locals.moved, Locals.range, Locals.address, Range.Within]
  omega

theorem Locals.not_over_init {L : ℕ} (hL : L < 2 ^ 31) (hpos : 0 < L) :
    0 < (Locals.init L).bytesRemaining := by
  rw [init_eq hL]
  exact Int.natCast_pos.mpr hpos

/-- The loop goes on as long as something is missing. -/
theorem Locals.not_over_moved {L n : ℕ} (hL : L < 2 ^ 31) :
    0 < ((Locals.init L).moved n).bytesRemaining ↔ n < L := by
  rw [init_eq hL]
  simp only [moved]
  omega

theorem Locals.le_of_le_remaining {L n : ℕ} (hL : L < 2 ^ 31)
    (h : n ≤ (Locals.init L).bytesRemaining) : n ≤ L := by
  rw [init_eq hL] at h
  exact Int.ofNat_le.mp h

theorem Locals.address_init {L : ℕ} (hL : L < 2 ^ 31) : (Locals.init L).address = 0 := by
  rw [init_eq hL]
  rfl

/-- A short transfer, and the range of the call after it: neither of the two holds. -/
theorem exact_iff_of_short {P : Prop} {L n : ℕ} {ranges : List Range} {rets : List Ret}
    (hL : L < 2 ^ 31) (hn : 0 < n) (hlt : n < L)
    (hmem : ((Locals.init L).moved n).range ∈ ranges) :
    (P ∧ ∀ x ∈ ranges, x.Within L) ↔ ∀ k, .moved k ∈ Ret.moved n :: rets → k = L := by
  constructor
  · intro hall
    exact absurd (hall.2 _ hmem) (Locals.not_within_moved hL hn hlt)
  · intro hall
    exact absurd (hall n List.mem_cons_self) hlt.ne

/-- One more call of the first pass. -/
theorem within_called {L : ℕ} (hL : L < 2 ^ 31) {ranges : List Range}
    (hranges : ∀ x ∈ ranges, x.Within L) :
    ∀ x ∈ ranges ++ [(Locals.init L).range], x.Within L := by
  intro x hx
  rcases List.mem_append.mp hx with hold | hnew
  · exact hranges x hold
  · rw [List.mem_singleton.mp hnew, Locals.range_init hL]
    exact (Nat.zero_add L).le

/-! ### `read_from_pipe` -/

/-- The variables of `read_from_pipe`, the buffer and what the pipe holds. -/
structure Reading where
  v : Locals
  data : Memory Byte
  pipe : List Byte
  ranges : List Range

namespace Reading

/-- A `read` that returns -1 or 0. -/
def called (s : Reading) : Reading := { s with ranges := s.ranges ++ [s.v.range] }

/-- A `read` of `n` bytes, and the rest of the loop body. -/
def read (s : Reading) (n : ℕ) : Reading where
  v := s.v.moved n
  data := s.data.store s.v.address (s.pipe.take n)
  pipe := s.pipe.drop n
  ranges := s.ranges ++ [s.v.range]

/-- The loop; `none` if it is not over after the last result, or does not get to it. -/
def loop (s : Reading) : List Ret → Option Reading
  | [] => if 0 < s.v.bytesRemaining then none else some s
  | ret :: rets =>
    if 0 < s.v.bytesRemaining then
      match ret with
      | .eintr => s.called.loop rets
      | .moved 0 => if s.pipe = [] ∧ rets = [] then some s.called else none
      | .moved (n + 1) =>
        if (n + 1 : ℕ) ≤ s.v.bytesRemaining ∧ n + 1 ≤ s.pipe.length then
          (s.read (n + 1)).loop rets
        else none
    else none

end Reading

/-- `read_from_pipe(fd, data, data_len)` on a pipe that holds `stream`. -/
def read_from_pipe (stream : List Byte) (data : Memory Byte) (data_len : ℕ) (rets : List Ret) :
    Option Reading :=
  Reading.loop ⟨.init data_len, data, stream, []⟩ rets

section Read

variable {s r : Reading} {rets : List Ret} {L : ℕ} {stream : List Byte} {data : Memory Byte}
  {ranges : List Range}

theorem Reading.loop_nil (h : s.loop [] = some r) : ¬ 0 < s.v.bytesRemaining ∧ r = s := by
  rw [loop] at h
  split_ifs at h with hpos
  cases h
  exact ⟨hpos, rfl⟩

/-- What one pass of the loop can do. -/
theorem Reading.loop_cons {ret : Ret} (h : s.loop (ret :: rets) = some r) :
    0 < s.v.bytesRemaining ∧
      (ret = .eintr ∧ s.called.loop rets = some r ∨
        ret = .moved 0 ∧ s.pipe = [] ∧ rets = [] ∧ r = s.called ∨
        ∃ n, ret = .moved n ∧ 0 < n ∧ n ≤ s.v.bytesRemaining ∧ n ≤ s.pipe.length ∧
          (s.read n).loop rets = some r) := by
  cases ret with
  | eintr =>
    rw [loop] at h
    split_ifs at h with hpos
    exact ⟨hpos, .inl ⟨rfl, h⟩⟩
  | moved n =>
    cases n with
    | zero =>
      rw [loop] at h
      split_ifs at h with hpos hend
      cases h
      exact ⟨hpos, .inr (.inl ⟨rfl, hend.1, hend.2, rfl⟩)⟩
    | succ n =>
      rw [loop] at h
      split_ifs at h with hpos hn
      exact ⟨hpos, .inr (.inr ⟨n + 1, rfl, Nat.succ_pos n, hn.1, hn.2, h⟩)⟩

theorem Reading.ranges_isPrefix (h : s.loop rets = some r) : s.ranges <+: r.ranges := by
  induction rets generalizing s with
  | nil =>
    obtain ⟨-, rfl⟩ := loop_nil h
    exact List.prefix_rfl
  | cons ret rets ih =>
    obtain ⟨-, ⟨-, hrest⟩ | ⟨-, -, -, rfl⟩ | ⟨n, -, -, -, -, hrest⟩⟩ := loop_cons h
    · exact (List.prefix_append _ _).trans (ih hrest)
    · exact List.prefix_append _ _
    · exact (List.prefix_append _ _).trans (ih hrest)

/-- If the loop is not over, there is one more call. -/
theorem Reading.range_mem (h : s.loop rets = some r) (hpos : 0 < s.v.bytesRemaining) :
    s.v.range ∈ r.ranges := by
  have hmem : s.v.range ∈ s.called.ranges := List.mem_append_right _ (List.mem_singleton_self _)
  cases rets with
  | nil => exact absurd hpos (loop_nil h).1
  | cons ret rets =>
    obtain ⟨-, ⟨-, hrest⟩ | ⟨-, -, -, rfl⟩ | ⟨n, -, -, -, -, hrest⟩⟩ := loop_cons h
    · exact (ranges_isPrefix hrest).subset hmem
    · exact hmem
    · exact (ranges_isPrefix hrest).subset hmem

/-- The call from its first `read` on. -/
theorem Reading.exact_iff (hL : L < 2 ^ 31) (hpos : 0 < L) (hstream : L ≤ stream.length)
    (hranges : ∀ x ∈ ranges, x.Within L) (h : loop ⟨.init L, data, stream, ranges⟩ rets = some r) :
    (r.data.load 0 L = stream.take L ∧ ∀ x ∈ r.ranges, x.Within L) ↔
      ∀ n, .moved n ∈ rets → n = L := by
  induction rets generalizing ranges with
  | nil => exact absurd (Locals.not_over_init hL hpos) (loop_nil h).1
  | cons ret rets ih =>
    obtain ⟨-, ⟨rfl, hrest⟩ | ⟨-, hnil, -⟩ | ⟨n, rfl, hn, hle, -, hrest⟩⟩ := loop_cons h
    · -- an interrupted `read` leaves everything as it was
      refine (ih (within_called hL hranges) hrest).trans (forall_congr' fun n => ?_)
      rw [List.mem_cons, or_iff_right Ret.noConfusion]
    · -- the pipe is not at its end
      have hempty : stream = [] := hnil
      rw [hempty, List.length_nil] at hstream
      omega
    · rcases Nat.lt_or_eq_of_le (Locals.le_of_le_remaining hL hle) with hlt | rfl
      · -- a short one: the loop goes on with a range that is too far on
        have hmem := range_mem hrest ((Locals.not_over_moved hL).mpr hlt)
        exact exact_iff_of_short hL hn hlt hmem
      · -- a whole one: the loop is over
        have hover : ¬ 0 < ((Locals.init n).moved n).bytesRemaining :=
          fun h => absurd ((Locals.not_over_moved hL).mp h) (lt_irrefl n)
        cases rets with
        | cons ret rets => exact absurd (loop_cons hrest).1 hover
        | nil =>
          obtain ⟨-, rfl⟩ := loop_nil hrest
          have hlen : (stream.take n).length = n := by
            rw [List.length_take, Nat.min_eq_left hstream]
          have hload : (data.store 0 (stream.take n)).load 0 (stream.take n).length
              = stream.take n := Memory.load_store
          rw [hlen] at hload
          refine ⟨fun _ k hk => ?_, fun _ => ⟨?_, within_called hL hranges⟩⟩
          · simpa using hk
          · show (data.store (Locals.init n).address (stream.take n)).load 0 n = stream.take n
            rw [Locals.address_init hL, hload]

/-- **What `read_from_pipe` reads**: it fills `data` with the next bytes of the stream, and
stays inside of it, exactly if no `read` that is not interrupted returns less than the
whole. -/
theorem read_exact_iff (hL : L < 2 ^ 31) (hstream : L ≤ stream.length)
    (h : read_from_pipe stream data L rets = some r) :
    (r.data.load 0 L = stream.take L ∧ ∀ x ∈ r.ranges, x.Within L) ↔
      ∀ n, .moved n ∈ rets → n = L := by
  rcases Nat.eq_zero_or_pos L with rfl | hpos
  · -- nothing is asked for, so there is no call
    have hover : ¬ 0 < (Locals.init 0).bytesRemaining := by decide
    cases rets with
    | cons ret rets => exact absurd (Reading.loop_cons h).1 hover
    | nil =>
      obtain ⟨-, rfl⟩ := Reading.loop_nil h
      exact ⟨fun _ n hn => absurd hn List.not_mem_nil, fun _ => ⟨rfl, fun x hx =>
        absurd hx List.not_mem_nil⟩⟩
  · exact Reading.exact_iff hL hpos hstream (fun x hx => absurd hx List.not_mem_nil) h

/-- Two halves: the second is read to where it does not belong. -/
theorem read_halves : ∃ r, read_from_pipe [1, 2, 3, 4, 5, 6, 7, 8] (fun _ => 0) 8
    [.moved 4, .moved 4] = some r ∧ r.data.load 0 8 ≠ [1, 2, 3, 4, 5, 6, 7, 8] ∧
    ⟨16, 4⟩ ∈ r.ranges :=
  ⟨_, rfl, by decide, by decide⟩

/-- After an interruption, all in one go. -/
theorem read_exact_whole : ∃ r, read_from_pipe [1, 2, 3, 4, 5, 6, 7, 8] (fun _ => 0) 8
    [.eintr, .moved 8] = some r ∧ r.data.load 0 8 = [1, 2, 3, 4, 5, 6, 7, 8] ∧
    ∀ x ∈ r.ranges, x.Within 8 := by
  obtain ⟨r, hr⟩ : ∃ r, read_from_pipe [1, 2, 3, 4, 5, 6, 7, 8] (fun _ => 0) 8
      [.eintr, .moved 8] = some r := ⟨_, rfl⟩
  refine ⟨r, hr, (read_exact_iff (by decide) (by decide) hr).mpr fun n hn => ?_⟩
  simpa using hn

/-- A pass of the loop is a step of `reader`. -/
theorem reader_read {prm : Params} {u u' : State prm} {c : Fin prm.numReaders} {eof : Bool}
    {v : Locals} {n : ℕ} (hpc : (u.reader c).pc = .reading v) (hn : 0 < n)
    (hpos : 0 < v.bytesRemaining) (h : reader eof u c (.moved n) = some u') :
    (u'.reader c).pc = .reading (Reading.read ⟨v, (u.reader c).data, u.pipe, ranges⟩ n).v ∧
      (u'.reader c).data = (Reading.read ⟨v, (u.reader c).data, u.pipe, ranges⟩ n).data ∧
      u'.pipe = (Reading.read ⟨v, (u.reader c).data, u.pipe, ranges⟩ n).pipe := by
  obtain ⟨k, rfl⟩ := Nat.exists_eq_succ_of_ne_zero hn.ne'
  rw [reader] at h
  simp only [hpc, if_pos hpos] at h
  split_ifs at h
  cases h
  simp only [Function.update_self]
  exact ⟨rfl, rfl, rfl⟩

end Read

/-! ### `write_to_pipe` -/

/-- The variables of `write_to_pipe` and the bytes that `write` has accepted. -/
structure Writing where
  v : Locals
  accepted : List Byte
  ranges : List Range

namespace Writing

/-- A `write` that returns -1. -/
def called (s : Writing) : Writing := { s with ranges := s.ranges ++ [s.v.range] }

/-- A `write` of `n` bytes, and the rest of the loop body. -/
def write (data : Memory Byte) (s : Writing) (n : ℕ) : Writing where
  v := s.v.moved n
  accepted := s.accepted ++ data.load s.v.address n
  ranges := s.ranges ++ [s.v.range]

/-- The loop; `none` if it is not over after the last result, or does not get to it. -/
def loop (data : Memory Byte) (s : Writing) : List Ret → Option Writing
  | [] => if 0 < s.v.bytesRemaining then none else some s
  | ret :: rets =>
    if 0 < s.v.bytesRemaining then
      match ret with
      | .eintr => s.called.loop data rets
      | .moved n =>
        if 0 < n ∧ n ≤ s.v.bytesRemaining then (s.write data n).loop data rets else none
    else none

end Writing

/-- `write_to_pipe(fd, data, data_len)`. -/
def write_to_pipe (data : Memory Byte) (data_len : ℕ) (rets : List Ret) : Option Writing :=
  Writing.loop data ⟨.init data_len, [], []⟩ rets

section Write

variable {s r : Writing} {rets : List Ret} {L : ℕ} {data : Memory Byte} {ranges : List Range}

theorem Writing.loop_nil (h : s.loop data [] = some r) : ¬ 0 < s.v.bytesRemaining ∧ r = s := by
  rw [loop] at h
  split_ifs at h with hpos
  cases h
  exact ⟨hpos, rfl⟩

/-- What one pass of the loop can do. -/
theorem Writing.loop_cons {ret : Ret} (h : s.loop data (ret :: rets) = some r) :
    0 < s.v.bytesRemaining ∧
      (ret = .eintr ∧ s.called.loop data rets = some r ∨
        ∃ n, ret = .moved n ∧ 0 < n ∧ n ≤ s.v.bytesRemaining ∧
          (s.write data n).loop data rets = some r) := by
  cases ret with
  | eintr =>
    rw [loop] at h
    split_ifs at h with hpos
    exact ⟨hpos, .inl ⟨rfl, h⟩⟩
  | moved n =>
    rw [loop] at h
    split_ifs at h with hpos hn
    exact ⟨hpos, .inr ⟨n, rfl, hn.1, hn.2, h⟩⟩

theorem Writing.ranges_isPrefix (h : s.loop data rets = some r) : s.ranges <+: r.ranges := by
  induction rets generalizing s with
  | nil =>
    obtain ⟨-, rfl⟩ := loop_nil h
    exact List.prefix_rfl
  | cons ret rets ih =>
    obtain ⟨-, ⟨-, hrest⟩ | ⟨n, -, -, -, hrest⟩⟩ := loop_cons h
    · exact (List.prefix_append _ _).trans (ih hrest)
    · exact (List.prefix_append _ _).trans (ih hrest)

/-- If the loop is not over, there is one more call. -/
theorem Writing.range_mem (h : s.loop data rets = some r) (hpos : 0 < s.v.bytesRemaining) :
    s.v.range ∈ r.ranges := by
  have hmem : s.v.range ∈ s.called.ranges := List.mem_append_right _ (List.mem_singleton_self _)
  cases rets with
  | nil => exact absurd hpos (loop_nil h).1
  | cons ret rets =>
    obtain ⟨-, ⟨-, hrest⟩ | ⟨n, -, -, -, hrest⟩⟩ := loop_cons h
    · exact (ranges_isPrefix hrest).subset hmem
    · exact (ranges_isPrefix hrest).subset hmem

/-- The call from its first `write` on. -/
theorem Writing.exact_iff (hL : L < 2 ^ 31) (hpos : 0 < L) (hranges : ∀ x ∈ ranges, x.Within L)
    (h : loop data ⟨.init L, [], ranges⟩ rets = some r) :
    (r.accepted = data.load 0 L ∧ ∀ x ∈ r.ranges, x.Within L) ↔
      ∀ n, .moved n ∈ rets → n = L := by
  induction rets generalizing ranges with
  | nil => exact absurd (Locals.not_over_init hL hpos) (loop_nil h).1
  | cons ret rets ih =>
    obtain ⟨-, ⟨rfl, hrest⟩ | ⟨n, rfl, hn, hle, hrest⟩⟩ := loop_cons h
    · -- an interrupted `write` leaves everything as it was
      refine (ih (within_called hL hranges) hrest).trans (forall_congr' fun n => ?_)
      rw [List.mem_cons, or_iff_right Ret.noConfusion]
    · rcases Nat.lt_or_eq_of_le (Locals.le_of_le_remaining hL hle) with hlt | rfl
      · -- a short one: the loop goes on with a range that is too far on
        have hmem := range_mem hrest ((Locals.not_over_moved hL).mpr hlt)
        exact exact_iff_of_short hL hn hlt hmem
      · -- a whole one: the loop is over
        have hover : ¬ 0 < ((Locals.init n).moved n).bytesRemaining :=
          fun h => absurd ((Locals.not_over_moved hL).mp h) (lt_irrefl n)
        cases rets with
        | cons ret rets => exact absurd (loop_cons hrest).1 hover
        | nil =>
          obtain ⟨-, rfl⟩ := loop_nil hrest
          refine ⟨fun _ k hk => ?_, fun _ => ⟨?_, within_called hL hranges⟩⟩
          · simpa using hk
          · show [] ++ data.load (Locals.init n).address n = data.load 0 n
            rw [Locals.address_init hL, List.nil_append]

/-- **What `write_to_pipe` writes**: the bytes accepted are those of `data`, and no range
reaches out of it, exactly if no `write` that is not interrupted accepts less than the
whole. -/
theorem write_exact_iff (hL : L < 2 ^ 31) (h : write_to_pipe data L rets = some r) :
    (r.accepted = data.load 0 L ∧ ∀ x ∈ r.ranges, x.Within L) ↔
      ∀ n, .moved n ∈ rets → n = L := by
  rcases Nat.eq_zero_or_pos L with rfl | hpos
  · -- nothing is to be written, so there is no call
    have hover : ¬ 0 < (Locals.init 0).bytesRemaining := by decide
    cases rets with
    | cons ret rets => exact absurd (Writing.loop_cons h).1 hover
    | nil =>
      obtain ⟨-, rfl⟩ := Writing.loop_nil h
      exact ⟨fun _ n hn => absurd hn List.not_mem_nil, fun _ => ⟨rfl, fun x hx =>
        absurd hx List.not_mem_nil⟩⟩
  · exact Writing.exact_iff hL hpos (fun x hx => absurd hx List.not_mem_nil) h

/-- Two halves: the second is taken from where it does not belong. -/
theorem write_halves : ∃ r, write_to_pipe (fun a => BitVec.ofNat 8 a) 8 [.moved 4, .moved 4]
    = some r ∧ r.accepted = [0, 1, 2, 3, 16, 17, 18, 19] ∧ ⟨16, 4⟩ ∈ r.ranges :=
  ⟨_, rfl, by decide, by decide⟩

/-- After an interruption, all in one go. -/
theorem write_exact_whole : ∃ r, write_to_pipe (fun a => BitVec.ofNat 8 a) 8 [.eintr, .moved 8]
    = some r ∧ r.accepted = [0, 1, 2, 3, 4, 5, 6, 7] ∧ ∀ x ∈ r.ranges, x.Within 8 := by
  obtain ⟨r, hr⟩ : ∃ r, write_to_pipe (fun a => BitVec.ofNat 8 a) 8 [.eintr, .moved 8]
      = some r := ⟨_, rfl⟩
  refine ⟨r, hr, (write_exact_iff (by decide) hr).mpr fun n hn => ?_⟩
  simpa using hn

/-- A pass of the loop is a step of `writer`. -/
theorem writer_write {prm : Params} {u u' : State prm} {p : Fin prm.numWriters}
    {v : Locals} {n : ℕ} (hpc : (u.writer p).pc = .writing v) (hpos : 0 < v.bytesRemaining)
    (h : writer u p (.moved n) = some u') :
    (u'.writer p).pc
        = .writing (Writing.write (u.writer p).data ⟨v, u.writing, ranges⟩ n).v ∧
      u'.writing = (Writing.write (u.writer p).data ⟨v, u.writing, ranges⟩ n).accepted := by
  rw [writer] at h
  simp only [hpc, if_pos hpos] at h
  split_ifs at h
  cases h
  simp only [Function.update_self]
  exact ⟨rfl, rfl⟩

end Write

end Pipe
