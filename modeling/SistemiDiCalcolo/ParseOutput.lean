/-
`parseOutput` of the riepilogo programs (Lab04, Lab05/00, Lab07/02).

The first loop reads the log one `int` after another and counts in `access_stats` how often each
number comes; it goes on as long as `read_bytes`, which is unsigned, is positive.  The second one
looks for the largest counter.

* `pass`, `readLoop` — the first loop, on any results of `read`;
* `scan`, `parseOutput` — the second loop, and the function;
* `statistics` — on a file of whole records, the counters are the numbers of records, and the
  child reported is the first one with the largest number;
* `survives_iff` — other results of `read` are counted as well.
-/
import SistemiDiCalcolo.Descriptor

open AccessLog (Byte intBytes readInts)

namespace ParseOutput

/-! ### The first loop -/

/-- What `read(fd, &index, sizeof(int))` does: it delivers bytes (none at the end of the file),
or it fails with -1. -/
inductive Result
  | data (bytes : List Byte) (le : bytes.length ≤ 4)
  | error
  deriving DecidableEq

namespace Result

/-- `read_bytes`: -1 is a large number there. -/
def read_bytes : Result → SizeT
  | data bytes _ => BitVec.ofNat 64 bytes.length
  | error => -1

/-- `index`, of which the bytes after the delivered ones keep their values. -/
def index (r : Result) (old : CInt) : CInt :=
  match r with
  | data bytes _ => intAt (fun a => (bytes ++ (intBytes old).drop bytes.length).getD a 0) 0
  | error => old

/-- A whole record. -/
def record (v : CInt) : Result := data (intBytes v) le_rfl

def endOfFile : Result := data [] (Nat.zero_le 4)

/-- The record that has been delivered, if it is a whole one. -/
def record? : Result → Option CInt
  | data bytes _ => if bytes.length = 4 then (readInts bytes).head? else none
  | error => none

end Result

/-- The variables of the loop; beside them the increments, each with the number of its pass, and
whether the loop has been left. -/
structure Counting where
  index : CInt
  access_stats : ℤ → CInt
  passes : ℕ
  increments : List (ℕ × CInt)
  left : Bool

/-- `calloc`, on what the memory holds; `index` is not initialised. -/
def start (n index : CInt) (memory : ℤ → CInt) : Counting where
  index := index
  access_stats i := if 0 ≤ i ∧ i < n.toInt then 0 else memory i
  passes := 0
  increments := []
  left := false

/-- One pass of the loop. -/
def pass (s : Counting) (r : Result) : Counting :=
  let index := r.index s.index
  if 0 < r.read_bytes then
    { index := index
      access_stats := Function.update s.access_stats index.toInt (s.access_stats index.toInt + 1)
      passes := s.passes + 1
      increments := s.increments ++ [(s.passes, index)]
      left := false }
  else { s with index := index, passes := s.passes + 1, left := true }

/-- The loop on successive results of `read`, until it is left. -/
def readLoop : List Result → Counting → Counting
  | [], s => s
  | r :: rs, s => if (pass s r).left then pass s r else readLoop rs (pass s r)

/-- The results of `read` on a file. -/
def reads : List Byte → List Result
  | b₀ :: b₁ :: b₂ :: b₃ :: bs => .data [b₀, b₁, b₂, b₃] le_rfl :: reads bs
  | [] => [.endOfFile]
  | [b₀] => [.data [b₀] (Nat.le_add_right 1 3), .endOfFile]
  | [b₀, b₁] => [.data [b₀, b₁] (Nat.le_add_right 2 2), .endOfFile]
  | [b₀, b₁, b₂] => [.data [b₀, b₁, b₂] (Nat.le_add_right 3 1), .endOfFile]

/-! ### The second loop -/

/-- The variables of the loop, and what it has printed. -/
structure Scan where
  i : CInt
  max_child_id : CInt
  max_accesses : CInt
  printed : List (CInt × CInt)

def Scan.start : Scan := ⟨0, -1, -1, []⟩

/-- One pass of the loop. -/
def Scan.pass (access_stats : ℤ → CInt) (s : Scan) : Scan :=
  let accesses := access_stats s.i.toInt
  let printed := s.printed ++ [(s.i, accesses)]
  if s.max_accesses.slt accesses then ⟨s.i + 1, s.i, accesses, printed⟩
  else ⟨s.i + 1, s.max_child_id, s.max_accesses, printed⟩

/-- Up to `k` passes of the loop. -/
def scan (n : CInt) (access_stats : ℤ → CInt) : ℕ → Scan → Scan
  | 0, s => s
  | k + 1, s => if s.i.slt n then scan n access_stats k (s.pass access_stats) else s

/-- `parseOutput`: the counters, and what is printed. -/
def parseOutput (n index : CInt) (memory : ℤ → CInt) (results : List Result) :
    (ℤ → CInt) × Scan :=
  let access_stats := (readLoop results (start n index memory)).access_stats
  (access_stats, scan n access_stats n.toInt.toNat .start)

section Passes

variable {s : Counting} {r : Result} {rs : List Result}

theorem Result.data_pos {bytes : List Byte} {le : bytes.length ≤ 4} :
    0 < (data bytes le).read_bytes ↔ 0 < bytes.length := by
  rw [read_bytes, BitVec.lt_def, BitVec.toNat_ofNat]
  show 0 < bytes.length % 2 ^ 64 ↔ 0 < bytes.length
  omega

theorem Result.pos_iff_ne_endOfFile : 0 < r.read_bytes ↔ r ≠ .endOfFile := by
  cases r with
  | data bytes le =>
    rw [data_pos, List.length_pos_iff]
    simp [endOfFile]
  | error => exact iff_of_true (by decide) (by simp [endOfFile])

/-- Whatever is not the end of the file is counted, and the loop goes on. -/
theorem pass_of_ne (hr : r ≠ .endOfFile) : pass s r =
    { index := r.index s.index
      access_stats := Function.update s.access_stats (r.index s.index).toInt
        (s.access_stats (r.index s.index).toInt + 1)
      passes := s.passes + 1
      increments := s.increments ++ [(s.passes, r.index s.index)]
      left := false } := by
  rw [pass, if_pos (Result.pos_iff_ne_endOfFile.mpr hr)]

theorem pass_endOfFile : pass s .endOfFile =
    { s with index := Result.endOfFile.index s.index, passes := s.passes + 1, left := true } := by
  rw [pass, if_neg (Result.pos_iff_ne_endOfFile.not.mpr (not_not_intro rfl))]

theorem readLoop_cons (hr : r ≠ .endOfFile) :
    readLoop (r :: rs) s = readLoop rs (pass s r) := by
  rw [readLoop, if_neg (by rw [pass_of_ne hr]; exact Bool.false_ne_true)]

theorem readLoop_endOfFile : readLoop (.endOfFile :: rs) s = pass s .endOfFile := by
  rw [readLoop, pass_endOfFile, if_pos rfl]

end Passes

/-! ### Whole records -/

section Records

variable {v old n : CInt} {s : Counting} {vs : List CInt} {j : ℤ}

theorem Result.index_record : (record v).index old = v := by
  have hload : Memory.load (fun a => (intBytes v).getD a 0) 0 4 = intBytes v := rfl
  have hdrop : (intBytes old).drop (intBytes v).length = [] := rfl
  show intAt (fun a => (intBytes v ++ (intBytes old).drop (intBytes v).length).getD a 0) 0 = v
  rw [hdrop, List.append_nil]
  exact intAt_of_load hload

theorem Result.record_ne_endOfFile : record v ≠ .endOfFile := by
  intro h
  have hbytes : intBytes v = [] := (Result.data.injEq _ _ _ _).mp h
  cases hbytes

/-- The records are counted, each where it says; the end of the file is not. -/
theorem readLoop_records : (readLoop (vs.map .record ++ [.endOfFile]) s).left = true ∧
    (readLoop (vs.map .record ++ [.endOfFile]) s).access_stats j =
      s.access_stats j + BitVec.ofNat 32 (vs.countP fun v => v.toInt = j) := by
  induction vs generalizing s with
  | nil =>
    rw [List.map_nil, List.nil_append, readLoop_endOfFile, pass_endOfFile, List.countP_nil]
    exact ⟨rfl, (BitVec.add_zero _).symm⟩
  | cons v vs ih =>
    rw [List.map_cons, List.cons_append, readLoop_cons Result.record_ne_endOfFile]
    refine ⟨ih.1, ?_⟩
    rw [ih.2, pass_of_ne Result.record_ne_endOfFile, Result.index_record, List.countP_cons]
    by_cases hj : v.toInt = j
    · subst hj
      simp only [Function.update_self, decide_true, if_true]
      rw [BitVec.add_assoc, Nat.add_comm, ← BitVec.ofNat_add_ofNat]
      rfl
    · simp [Function.update_of_ne (Ne.symm hj), hj]

/-- A file of whole records is read record by record. -/
theorem reads_flatMap : reads (vs.flatMap intBytes) = vs.map .record ++ [.endOfFile] := by
  induction vs with
  | nil => rfl
  | cons v vs ih =>
    rw [List.map_cons, List.cons_append, ← ih]
    rfl

end Records

/-! ### The largest counter -/

section Largest

variable {N k id : ℕ} {f : ℕ → ℕ} {n : CInt} {access_stats : ℤ → CInt} {s : Scan}

/-- Among the first `k` numbers `f` is the largest at `id`, and there for the first time. -/
structure FirstMax (f : ℕ → ℕ) (k id : ℕ) : Prop where
  lt : id < k
  le : ∀ j, j < k → f j ≤ f id
  first : ∀ j, j < id → f j < f id

theorem FirstMax.one (f : ℕ → ℕ) : FirstMax f 1 0 where
  lt := Nat.one_pos
  le j hj := by rw [Nat.lt_one_iff.mp hj]
  first j hj := absurd hj (Nat.not_lt_zero j)

/-- A larger number comes. -/
theorem FirstMax.larger (h : FirstMax f k id) (hlt : f id < f k) : FirstMax f (k + 1) k where
  lt := Nat.lt_succ_self k
  le j hj := by
    rcases Nat.lt_succ_iff_lt_or_eq.mp hj with hj | rfl
    · exact (h.le j hj).trans hlt.le
    · exact le_rfl
  first j hj := (h.le j hj).trans_lt hlt

/-- No larger number comes. -/
theorem FirstMax.same (h : FirstMax f k id) (hle : f k ≤ f id) : FirstMax f (k + 1) id where
  lt := Nat.lt_succ_of_lt h.lt
  le j hj := by
    rcases Nat.lt_succ_iff_lt_or_eq.mp hj with hj | rfl
    · exact h.le j hj
    · exact hle
  first := h.first

/-- The loop after `k` passes. -/
structure Scanned (f : ℕ → ℕ) (k : ℕ) (s : Scan) : Prop where
  i : s.i = BitVec.ofNat 32 k
  none : k = 0 → s.max_accesses = -1
  some : 0 < k → ∃ id, FirstMax f k id ∧ s.max_child_id = BitVec.ofNat 32 id ∧
    s.max_accesses = BitVec.ofNat 32 (f id)
  printed : s.printed =
    (List.range k).map fun i => (BitVec.ofNat 32 i, BitVec.ofNat 32 (f i))

theorem slt_ofNat {a b : ℕ} (ha : a < 2 ^ 31) (hb : b < 2 ^ 31) :
    (BitVec.ofNat 32 a : CInt).slt (BitVec.ofNat 32 b) = true ↔ a < b := by
  rw [BitVec.slt_iff_toInt_lt, toInt_ofNat_of_lt ha, toInt_ofNat_of_lt hb, Int.ofNat_lt]

/-- One more counter. -/
theorem Scanned.pass (h : Scanned f k s) (hk : k < 2 ^ 31) (hf : ∀ i, f i < 2 ^ 31)
    (hstats : access_stats k = BitVec.ofNat 32 (f k)) :
    Scanned f (k + 1) (s.pass access_stats) := by
  have hread : access_stats s.i.toInt = BitVec.ofNat 32 (f k) := by
    rw [h.i, toInt_ofNat_of_lt hk, hstats]
  have hi : s.i + 1 = BitVec.ofNat 32 (k + 1) := by
    rw [h.i]
    exact BitVec.ofNat_add_ofNat k 1
  have hprinted : s.printed ++ [(s.i, BitVec.ofNat 32 (f k))] =
      (List.range (k + 1)).map fun i => (BitVec.ofNat 32 i, BitVec.ofNat 32 (f i)) := by
    rw [List.range_succ, List.map_append, ← h.printed, h.i]
    rfl
  rw [Scan.pass, hread]
  rcases Nat.eq_zero_or_pos k with rfl | hpos
  · -- every counter is larger than -1
    have hneg : s.max_accesses.slt (BitVec.ofNat 32 (f 0)) = true := by
      rw [h.none rfl, BitVec.slt_iff_toInt_lt, toInt_ofNat_of_lt (hf 0)]
      show (-1 : ℤ) < f 0
      omega
    rw [if_pos hneg]
    exact ⟨hi, fun h => absurd h (Nat.succ_ne_zero _), fun _ => ⟨0, .one f, h.i, rfl⟩, hprinted⟩
  · obtain ⟨id, hid, hchild, hmax⟩ := h.some hpos
    -- only a larger counter takes the place of the maximum
    by_cases hlt : f id < f k
    · rw [if_pos (by rw [hmax]; exact (slt_ofNat (hf id) (hf k)).mpr hlt)]
      exact ⟨hi, fun h => absurd h (Nat.succ_ne_zero _), fun _ => ⟨k, hid.larger hlt, h.i, rfl⟩,
        hprinted⟩
    · rw [if_neg (by rw [hmax, slt_ofNat (hf id) (hf k)]; exact hlt)]
      exact ⟨hi, fun h => absurd h (Nat.succ_ne_zero _),
        fun _ => ⟨id, hid.same (Nat.le_of_not_lt hlt), hchild, hmax⟩, hprinted⟩

theorem Scanned.start (f : ℕ → ℕ) : Scanned f 0 .start where
  i := rfl
  none _ := rfl
  some h := absurd h (Nat.lt_irrefl 0)
  printed := rfl

/-- All counters. -/
theorem Scanned.scan (hn : n = BitVec.ofNat 32 N) (hN : N < 2 ^ 31) (hf : ∀ i, f i < 2 ^ 31)
    (hstats : ∀ i, i < N → access_stats i = BitVec.ofNat 32 (f i)) {m : ℕ}
    (h : Scanned f k s) (hm : k + m = N) : Scanned f N (scan n access_stats m s) := by
  induction m generalizing k s with
  | zero =>
    obtain rfl : k = N := hm
    exact h
  | succ m ih =>
    have hlt : s.i.slt n = true := by
      rw [h.i, hn, slt_ofNat (by omega) hN]
      omega
    rw [ParseOutput.scan, if_pos hlt]
    exact ih (h.pass (by omega) hf (hstats k (by omega))) (by omega)

end Largest

/-! ### The statistics -/

section Statistics

variable {N : ℕ} {n index : CInt} {memory : ℤ → CInt} {vs : List CInt}

theorem countP_toInt {i : ℕ} (hi : i < 2 ^ 31) :
    (vs.countP fun v => v.toInt = (i : ℤ)) = vs.count (BitVec.ofNat 32 i) := by
  rw [List.count]
  refine List.countP_congr fun v _ => ?_
  rw [beq_iff_eq, decide_eq_true_iff, ← toInt_ofNat_of_lt hi]
  exact ⟨BitVec.eq_of_toInt_eq, congrArg _⟩

theorem start_inside {i : ℤ} (h : 0 ≤ i ∧ i < n.toInt) :
    (start n index memory).access_stats i = 0 := if_pos h

theorem start_outside {i : ℤ} (h : ¬ (0 ≤ i ∧ i < n.toInt)) :
    (start n index memory).access_stats i = memory i := if_neg h

/-- The counters of a file of whole records. -/
theorem counter_reads {i : ℕ} (hi : i < n.toInt.toNat) :
    (readLoop (reads (vs.flatMap intBytes)) (start n index memory)).access_stats i =
      BitVec.ofNat 32 (vs.count (BitVec.ofNat 32 i)) := by
  have hnlt := BitVec.toInt_lt (x := n)
  rw [reads_flatMap, readLoop_records.2, start_inside (by omega), countP_toInt (by omega)]
  exact BitVec.zero_add _

/-- The rest of the memory. -/
theorem memory_reads (hvs : ∀ v ∈ vs, 0 ≤ v.toInt ∧ v.toInt < n.toInt) {i : ℤ}
    (hi : ¬ (0 ≤ i ∧ i < n.toInt)) :
    (readLoop (reads (vs.flatMap intBytes)) (start n index memory)).access_stats i = memory i := by
  have hzero : (vs.countP fun v => v.toInt = i) = 0 := by
    rw [List.countP_eq_zero]
    intro v hv h
    rw [decide_eq_true_iff] at h
    exact hi (h ▸ hvs v hv)
  rw [reads_flatMap, readLoop_records.2, start_outside hi, hzero]
  exact BitVec.add_zero _

/-- **The statistics**: on a file of whole records the first loop ends, the counter of a child is
the number of its records, nothing else in the memory has changed, all counters are printed, and
the child reported is the first one with the largest number. -/
theorem statistics (n index : CInt) (memory : ℤ → CInt) (vs : List CInt) (hn : 1 ≤ n.toInt)
    (hvs : ∀ v ∈ vs, 0 ≤ v.toInt ∧ v.toInt < n.toInt) (hlen : vs.length < 2 ^ 31) :
    (readLoop (reads (vs.flatMap intBytes)) (start n index memory)).left = true ∧
      ∃ access_stats s, parseOutput n index memory (reads (vs.flatMap intBytes)) =
          (access_stats, s) ∧
        (∀ i : ℕ, i < n.toInt.toNat → (access_stats i).toInt = vs.count (BitVec.ofNat 32 i)) ∧
        (∀ i : ℤ, ¬ (0 ≤ i ∧ i < n.toInt) → access_stats i = memory i) ∧
        s.printed = (List.range n.toInt.toNat).map (fun i => (BitVec.ofNat 32 i, access_stats i)) ∧
        ∃ id, FirstMax (fun i => vs.count (BitVec.ofNat 32 i)) n.toInt.toNat id ∧
          s.max_child_id.toInt = id ∧ s.max_accesses.toInt = vs.count (BitVec.ofNat 32 id) := by
  have hnlt := BitVec.toInt_lt (x := n)
  have hnat : n = BitVec.ofNat 32 n.toInt.toNat := by
    apply BitVec.eq_of_toInt_eq
    rw [toInt_ofNat_of_lt (by omega)]
    omega
  have hcount : ∀ i : ℕ, vs.count (BitVec.ofNat 32 i) < 2 ^ 31 := fun i =>
    List.count_le_length.trans_lt hlen
  have hcounter : ∀ i : ℕ, i < n.toInt.toNat →
      (readLoop (reads (vs.flatMap intBytes)) (start n index memory)).access_stats i =
        BitVec.ofNat 32 (vs.count (BitVec.ofNat 32 i)) := fun i hi => counter_reads hi
  -- the second loop, over what the first one has left in memory
  have hscan := (Scanned.start _).scan hnat (by omega) hcount hcounter (Nat.zero_add _)
  obtain ⟨id, hfirst, hchild, hmax⟩ := hscan.some (by omega)
  have hid := hfirst.lt
  refine ⟨by rw [reads_flatMap]; exact (readLoop_records (j := 0)).1, _, _, rfl, fun i hi => ?_,
    fun i hi => memory_reads hvs hi, ?_, id, hfirst, ?_, ?_⟩
  · rw [counter_reads hi, toInt_ofNat_of_lt (hcount i)]
  · refine hscan.printed.trans (List.map_congr_left fun i hi => ?_)
    rw [counter_reads (List.mem_range.mp hi)]
  · rw [hchild, toInt_ofNat_of_lt (by omega)]
  · rw [hmax, toInt_ofNat_of_lt (hcount id)]

/-- Four records of three children: child 1 and child 2 have two each, child 1 is reported. -/
theorem statistics_three : ∃ access_stats s,
    parseOutput 3 7 (fun _ => 9) (reads ([2, 1, 1, 2].flatMap intBytes)) = (access_stats, s) ∧
      (access_stats 0).toInt = 0 ∧ (access_stats 1).toInt = 2 ∧ access_stats 3 = 9 ∧
      ∃ id, FirstMax (fun i => List.count (BitVec.ofNat 32 i : CInt) [2, 1, 1, 2]) 3 id ∧
        s.max_child_id.toInt = id := by
  obtain ⟨-, access_stats, s, hparse, hcounter, hmemory, -, id, hfirst, hchild, -⟩ :=
    statistics 3 7 (fun _ => 9) [2, 1, 1, 2] (by decide) (by simp) (by simp)
  exact ⟨access_stats, s, hparse, hcounter 0 (by decide), hcounter 1 (by decide),
    hmemory 3 (by decide), id, hfirst, hchild⟩

end Statistics

/-! ### Other results of `read` -/

section Results

variable {n index v old : CInt} {memory : ℤ → CInt} {r : Result} {rs : List Result}
  {s : Counting} {k : ℕ} {i : CInt}

/-- The result is 0 or -1. -/
def Result.stops (r : Result) : Bool := r = .endOfFile ∨ r = .error

/-- The counters are incremented for whole records only, each at its own index, and the
loop is left at the first result that is 0 or -1. -/
def Survives (rs : List Result) (s : Counting) : Prop :=
  (∀ k i, (k, i) ∈ s.increments → ∃ r, rs[k]? = some r ∧ r.record? = some i) ∧
    (s.left = true ↔ ∃ r ∈ rs, r.stops = true) ∧
    s.passes = min rs.length ((rs.takeWhile fun r => !r.stops).length + 1)

/-- The results before the first end of the file. -/
def live (rs : List Result) : List Result := rs.takeWhile fun r => r ≠ .endOfFile

theorem index_of_record? (h : r.record? = some v) : r.index old = v := by
  cases r with
  | error => cases h
  | data bytes le =>
    rw [Result.record?] at h
    split at h
    · rename_i hlen
      obtain ⟨b₀, b₁, b₂, b₃, rfl⟩ : ∃ b₀ b₁ b₂ b₃, bytes = [b₀, b₁, b₂, b₃] := by
        obtain _ | ⟨b₀, _ | ⟨b₁, _ | ⟨b₂, _ | ⟨b₃, _ | ⟨b₄, bs⟩⟩⟩⟩⟩ := bytes
        all_goals simp at hlen ⊢
      exact Option.some.inj h
    · cases h

theorem live_endOfFile : live (.endOfFile :: rs) = [] := by
  rw [live, List.takeWhile_cons_of_neg (by simp)]

theorem live_cons (hr : r ≠ .endOfFile) : live (r :: rs) = r :: live rs := by
  rw [live, List.takeWhile_cons_of_pos (by simpa using hr), live]

/-- Every pass before the first end of the file increments a counter. -/
theorem increments_fst : (readLoop rs s).increments.map Prod.fst =
    s.increments.map Prod.fst ++ List.range' s.passes (live rs).length := by
  induction rs generalizing s with
  | nil => exact (List.append_nil _).symm
  | cons r rs ih =>
    by_cases hr : r = .endOfFile
    · subst hr
      rw [readLoop_endOfFile, pass_endOfFile, live_endOfFile]
      exact (List.append_nil _).symm
    · rw [readLoop_cons hr, ih, live_cons hr, pass_of_ne hr, List.map_append, List.append_assoc,
        List.length_cons, List.range'_succ]
      rfl

/-- The index of an increment is the one its pass has left. -/
theorem increments_index (h : (k, i) ∈ (readLoop rs s).increments) :
    (k, i) ∈ s.increments ∨ ∃ j r old, k = s.passes + j ∧ rs[j]? = some r ∧ i = r.index old := by
  induction rs generalizing s with
  | nil => exact .inl h
  | cons r rs ih =>
    by_cases hr : r = .endOfFile
    · subst hr
      rw [readLoop_endOfFile, pass_endOfFile] at h
      exact .inl h
    · rw [readLoop_cons hr] at h
      rcases ih h with hmem | ⟨j, r', old, hk, hj, hi⟩
      · rw [pass_of_ne hr] at hmem
        rcases List.mem_append.mp hmem with hold | hnew
        · exact .inl hold
        · obtain ⟨rfl, rfl⟩ := Prod.mk.inj (List.mem_singleton.mp hnew)
          exact .inr ⟨0, r, s.index, rfl, rfl, rfl⟩
      · rw [pass_of_ne hr] at hk
        exact .inr ⟨j + 1, r', old, by rw [hk, Nat.add_assoc, Nat.add_comm 1 j], hj, hi⟩

/-- The loop is left at the first end of the file. -/
theorem readLoop_left (rs : List Result) (hs : s.left = false) :
    ((readLoop rs s).left = true ↔ .endOfFile ∈ rs) ∧
      (readLoop rs s).passes = s.passes + min rs.length ((live rs).length + 1) := by
  induction rs generalizing s with
  | nil =>
    refine ⟨iff_of_false ?_ List.not_mem_nil, rfl⟩
    rw [readLoop, hs]
    exact Bool.false_ne_true
  | cons r rs ih =>
    by_cases hr : r = .endOfFile
    · subst hr
      rw [readLoop_endOfFile, pass_endOfFile, live_endOfFile]
      refine ⟨iff_of_true rfl List.mem_cons_self, ?_⟩
      rw [List.length_cons, List.length_nil]
      show s.passes + 1 = _
      omega
    · have hpass := pass_of_ne (s := s) hr
      obtain ⟨hleft, hpasses⟩ := ih (s := pass s r) (by rw [hpass])
      rw [readLoop_cons hr, live_cons hr, hleft, hpasses, hpass, List.mem_cons,
        or_iff_right (Ne.symm hr), List.length_cons, List.length_cons]
      refine ⟨Iff.rfl, ?_⟩
      show s.passes + 1 + _ = _
      omega

theorem getElem?_live (hk : k < (live rs).length) : rs[k]? = some (live rs)[k] := by
  have hprefix : live rs <+: rs := List.takeWhile_prefix _
  rw [List.getElem?_eq_getElem (hk.trans_le hprefix.length_le), ← hprefix.getElem hk]

/-- As long as no error comes, the first result that is 0 or -1 is the end of the file. -/
theorem takeWhile_stops (h : ∀ r ∈ live rs, r ≠ .error) :
    (rs.takeWhile fun r => !r.stops) = live rs := by
  induction rs with
  | nil => rfl
  | cons r rs ih =>
    by_cases hr : r = .endOfFile
    · subst hr
      rw [live_endOfFile, List.takeWhile_cons_of_neg (by simp [Result.stops])]
    · rw [live_cons hr] at h ⊢
      obtain ⟨herror, hrest⟩ := List.forall_mem_cons.mp h
      rw [List.takeWhile_cons_of_pos (by simp [Result.stops, hr, herror]), ih hrest]

theorem endOfFile_mem_iff (h : ∀ r ∈ live rs, r ≠ .error) :
    .endOfFile ∈ rs ↔ ∃ r ∈ rs, r.stops = true := by
  constructor
  · exact fun hmem => ⟨_, hmem, by simp [Result.stops]⟩
  · rintro ⟨r, hmem, hr⟩
    by_contra hnot
    have hall : live rs = rs := by
      rw [live, List.takeWhile_eq_self_iff]
      exact fun r' hr' => decide_eq_true fun heq => hnot (heq ▸ hr')
    rcases of_decide_eq_true hr with rfl | rfl
    · exact hnot hmem
    · exact h _ (hall.symm ▸ hmem) rfl

/-- **What the loop survives**: nothing but whole records before the first 0. -/
theorem survives_iff (n index : CInt) (memory : ℤ → CInt) (rs : List Result) :
    Survives rs (readLoop rs (start n index memory)) ↔
      ∀ r ∈ live rs, r.record?.isSome = true := by
  have hfst : (readLoop rs (start n index memory)).increments.map Prod.fst =
      List.range' 0 (live rs).length := increments_fst
  obtain ⟨hleft, hpasses⟩ := readLoop_left rs (s := start n index memory) rfl
  constructor
  · rintro ⟨hrecords, -⟩ r hr
    obtain ⟨k, hk, rfl⟩ := List.mem_iff_getElem.mp hr
    have hmem : k ∈ (readLoop rs (start n index memory)).increments.map Prod.fst := by
      rw [hfst, List.mem_range'_1]
      omega
    obtain ⟨⟨k', i⟩, hinc, rfl⟩ := List.mem_map.mp hmem
    obtain ⟨r', hr', hrecord⟩ := hrecords _ _ hinc
    rw [getElem?_live hk] at hr'
    obtain rfl := Option.some.inj hr'
    rw [hrecord, Option.isSome_some]
  · intro hwhole
    have herror : ∀ r ∈ live rs, r ≠ .error := by
      rintro r hr rfl
      exact absurd (hwhole _ hr) (by simp [Result.record?])
    refine ⟨fun k i hinc => ?_, ?_, ?_⟩
    · have hk : k ∈ (readLoop rs (start n index memory)).increments.map Prod.fst :=
        List.mem_map.mpr ⟨_, hinc, rfl⟩
      rw [hfst, List.mem_range'_1, Nat.zero_add] at hk
      have hget := getElem?_live hk.2
      obtain ⟨v, hv⟩ := Option.isSome_iff_exists.mp (hwhole _ (List.getElem_mem hk.2))
      -- an iteration increments the counter of the record it has read
      rcases increments_index hinc with hold | ⟨j, r, old, hj, hr, hi⟩
      · exact absurd hold List.not_mem_nil
      · obtain rfl : k = j := hj.trans (Nat.zero_add j)
        rw [hget] at hr
        obtain rfl := Option.some.inj hr
        rw [hi, index_of_record? hv]
        exact ⟨_, hget, hv⟩
    · rw [hleft, endOfFile_mem_iff herror]
    · rw [hpasses, takeWhile_stops herror]
      exact Nat.zero_add _

theorem not_survives (hinc : (k, i) ∈ s.increments) (hr : rs[k]? = some r)
    (hrecord : r.record? = none) : ¬ Survives rs s := by
  intro h
  obtain ⟨r', hr', hi⟩ := h.1 k i hinc
  rw [hr] at hr'
  obtain rfl := Option.some.inj hr'
  rw [hrecord] at hi
  cases hi

/-- A file of one record and one byte: child 2 is counted without a record.  An error after the
record: child 1 is counted once more. -/
theorem stray_byte_counted :
    (readLoop (reads (intBytes 1 ++ [2])) (start 3 0 fun _ => 0)).increments = [(0, 1), (1, 2)] ∧
      ¬ Survives (reads (intBytes 1 ++ [2]))
        (readLoop (reads (intBytes 1 ++ [2])) (start 3 0 fun _ => 0)) ∧
      (readLoop [.record 1, .error, .endOfFile] (start 3 0 fun _ => 0)).increments =
        [(0, 1), (1, 1)] ∧
      ¬ Survives [.record 1, .error, .endOfFile]
        (readLoop [.record 1, .error, .endOfFile] (start 3 0 fun _ => 0)) := by
  have hbyte : (readLoop (reads (intBytes 1 ++ [2])) (start 3 0 fun _ => 0)).increments =
      [(0, 1), (1, 2)] := by decide
  have herror : (readLoop [.record 1, .error, .endOfFile] (start 3 0 fun _ => 0)).increments =
      [(0, 1), (1, 1)] := by decide
  refine ⟨hbyte, not_survives (k := 1) (i := 2) ?_ rfl rfl, herror,
    not_survives (k := 1) (i := 1) ?_ rfl rfl⟩
  · rw [hbyte]
    exact List.mem_cons_of_mem _ (List.mem_singleton_self _)
  · rw [herror]
    exact List.mem_cons_of_mem _ (List.mem_singleton_self _)

end Results

end ParseOutput
