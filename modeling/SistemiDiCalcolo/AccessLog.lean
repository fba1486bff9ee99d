/-
The access log of the riepilogo programs and the thread that appends to it.

`thread_function` takes a binary semaphore, opens the log in append mode,
writes the number of its process as an `int`, closes the log and posts the
semaphore.  The programs of Lab04, Lab05 and Lab07 share it; they differ in the
semaphore they give it, which is an argument here.

* `readInts_flatMap` — a log of whole records is read back record by record;
* `thread_function_spec` — what one step does to the semaphore and to the log;
* `Filled` — which threads exist while a process creates and joins them.
-/
import SistemiDiCalcolo.Tally
import SistemiDiCalcolo.Transaction

open Function (update)

namespace AccessLog

/-! ### The file -/

abbrev Byte := BitVec 8

/-- The bytes of an `int` in memory, the low one first. -/
def intBytes (v : CInt) : List Byte :=
  [v.extractLsb' 0 8, v.extractLsb' 8 8, v.extractLsb' 16 8, v.extractLsb' 24 8]

/-- What the loop of `read(fd, &index, sizeof(int))` finds in a file. -/
def readInts : List Byte → List CInt
  | b₀ :: b₁ :: b₂ :: b₃ :: bs => (b₃ ++ b₂ ++ b₁ ++ b₀ : BitVec (8 + 8 + 8 + 8)) :: readInts bs
  | _ => []

theorem readInts_intBytes (v : CInt) (bs : List Byte) :
    readInts (intBytes v ++ bs) = v :: readInts bs := by
  rw [intBytes, List.cons_append, List.cons_append, List.cons_append, List.cons_append,
    List.nil_append, readInts]
  congr 1
  ext i hi
  simp only [BitVec.getElem_append, BitVec.getElem_extractLsb']
  split_ifs <;> rw [BitVec.getLsbD_eq_getElem (by omega)] <;> congr 1 <;> omega

/-- A file of whole records is read back record by record. -/
theorem readInts_flatMap (vs : List CInt) : readInts (vs.flatMap intBytes) = vs := by
  induction vs with
  | nil => rfl
  | cons v vs ih => rw [List.flatMap_cons, readInts_intBytes, ih]

/-- The log: the bytes of the file, and beside them who appended, in order. -/
structure Log (n : ℕ) where
  bytes : List Byte
  records : List (Fin n)

namespace Log

variable {n : ℕ}

/-- The file as `init_file` leaves it. -/
def empty : Log n := ⟨[], []⟩

/-- The `int` that child `i` writes. -/
def childId (i : Fin n) : CInt := BitVec.ofNat 32 i

/-- `write(fd, &(args->child_id), sizeof(int))` with `O_APPEND`. -/
def write (log : Log n) (i : Fin n) : Log n :=
  ⟨log.bytes ++ intBytes (childId i), log.records ++ [i]⟩

/-- The bytes are those of the records, whole and in order. -/
def Whole (log : Log n) : Prop := log.bytes = log.records.flatMap fun i => intBytes (childId i)

theorem whole_empty : (empty : Log n).Whole := rfl

theorem Whole.write {log : Log n} (h : log.Whole) (i : Fin n) : (log.write i).Whole := by
  have heq : log.bytes = log.records.flatMap fun i => intBytes (childId i) := h
  rw [Whole, Log.write, heq, List.flatMap_append]
  simp

/-- A whole log is read back as the numbers of its records. -/
theorem Whole.readInts {log : Log n} (h : log.Whole) :
    readInts log.bytes = log.records.map childId := by
  have heq : log.bytes = log.records.flatMap fun i => intBytes (childId i) := h
  rw [heq, ← readInts_flatMap (log.records.map childId), List.flatMap_map]

/-- The `int` a child writes is its number. -/
theorem childId_toInt (hn : n ≤ 2 ^ 31) (i : Fin n) : (childId i).toInt = i.val :=
  toInt_ofNat_of_lt (i.isLt.trans_le hn)

/-- The `int`s of a whole log are numbers of children. -/
theorem Whole.toInt_of_mem {log : Log n} (h : log.Whole) (hn : n ≤ 2 ^ 31) {index : CInt}
    (hindex : index ∈ AccessLog.readInts log.bytes) : 0 ≤ index.toInt ∧ index.toInt < n := by
  rw [h.readInts, List.mem_map] at hindex
  obtain ⟨i, -, rfl⟩ := hindex
  have := i.isLt
  rw [childId_toInt hn]
  omega

/-- The records of a child, as `int`s. -/
theorem count_childId (hn : n ≤ 2 ^ 31) (records : List (Fin n)) (i : Fin n) :
    (records.map childId).count (BitVec.ofNat 32 i) = records.count i := by
  have hinj : Function.Injective (childId : Fin n → CInt) := fun j k hjk => by
    have hint := congrArg BitVec.toInt hjk
    rw [childId_toInt hn, childId_toInt hn] at hint
    exact Fin.ext (by exact_mod_cast hint)
  exact List.count_map_of_injective _ _ hinj i

theorem count_write (log : Log n) (i k : Fin n) :
    (log.write i).records.count k = log.records.count k + if i = k then 1 else 0 := by
  rw [Log.write, List.count_append, List.count_singleton]
  simp

end Log

/-! ### The thread -/

/-- Program points of `thread_function`; `absent` is a thread not created yet or
joined already, `done` one that has called `pthread_exit`. -/
inductive ThreadPc
  | absent
  | waitSem
  | opening
  | writing
  | closing
  | posting
  | done
  deriving DecidableEq, Repr

namespace ThreadPc

/-- 1 between `sem_wait` and `sem_post`. -/
def inside : ThreadPc → ℕ
  | .opening | .writing | .closing | .posting => 1
  | _ => 0

/-- 1 while the thread has its record to write. -/
def pending : ThreadPc → ℕ
  | .waitSem | .opening | .writing => 1
  | _ => 0

end ThreadPc

variable {n : ℕ}

/-- The next step of `thread_function` in a thread of child `id`, on the semaphore
it takes and on the log. -/
def thread_function (id : Fin n) (sem : ℕ) (log : Log n) (pc : ThreadPc) :
    Option (ℕ × Log n × ThreadPc) :=
  match pc with
  | .waitSem => if 0 < sem then some (sem - 1, log, .opening) else none
  | .opening => some (sem, log, .writing)
  | .writing => some (sem, log.write id, .closing)
  | .closing => some (sem, log, .posting)
  | .posting => some (sem + 1, log, .done)
  | .absent | .done => none

section Step

variable {id : Fin n} {sem sem' : ℕ} {log log' : Log n} {pc pc' : ThreadPc}

/-- A step of `thread_function`. -/
inductive ThreadStep (id : Fin n) (sem : ℕ) (log : Log n) : ThreadPc → ℕ → Log n → ThreadPc → Prop
  | waitSem : 0 < sem → ThreadStep id sem log .waitSem (sem - 1) log .opening
  | opening : ThreadStep id sem log .opening sem log .writing
  | writing : ThreadStep id sem log .writing sem (log.write id) .closing
  | closing : ThreadStep id sem log .closing sem log .posting
  | posting : ThreadStep id sem log .posting (sem + 1) log .done

theorem thread_step (h : thread_function id sem log pc = some (sem', log', pc')) :
    ThreadStep id sem log pc sem' log' pc' := by
  cases pc with
  | waitSem =>
    simp only [thread_function] at h
    split_ifs at h with hpos
    cases h
    exact .waitSem hpos
  | opening =>
    cases h
    exact .opening
  | writing =>
    cases h
    exact .writing
  | closing =>
    cases h
    exact .closing
  | posting =>
    cases h
    exact .posting
  | absent | done => cases h

/-- One step keeps the account of the binary semaphore, and it appends the record of
the process exactly when it uses up the thread's pending one. -/
theorem thread_function_spec (h : thread_function id sem log pc = some (sem', log', pc')) :
    sem' + pc'.inside = sem + pc.inside ∧
      (log' = log ∧ pc'.pending = pc.pending ∨
        log' = log.write id ∧ pc'.pending + 1 = pc.pending) ∧
      pc ≠ .absent ∧ pc' ≠ .absent := by
  cases thread_step h with
  | waitSem hpos =>
    refine ⟨Nat.sub_add_cancel hpos, .inl ⟨rfl, rfl⟩, ?_, ?_⟩ <;> decide
  | writing => exact ⟨rfl, .inr ⟨rfl, rfl⟩, by decide, by decide⟩
  | opening | closing | posting => exact ⟨rfl, .inl ⟨rfl, rfl⟩, by decide, by decide⟩

/-- What has been appended and what is pending add up, for every process. -/
theorem thread_function_count (h : thread_function id sem log pc = some (sem', log', pc'))
    (k : Fin n) :
    log'.records.count k + (if id = k then pc'.pending else 0)
      = log.records.count k + if id = k then pc.pending else 0 := by
  obtain ⟨-, ⟨rfl, hpending⟩ | ⟨rfl, hpending⟩, -⟩ := thread_function_spec h
  · rw [hpending]
  · rw [Log.count_write]
    split_ifs <;> omega

theorem thread_function_whole (h : thread_function id sem log pc = some (sem', log', pc'))
    (hlog : log.Whole) : log'.Whole := by
  obtain ⟨-, ⟨rfl, -⟩ | ⟨rfl, -⟩, -⟩ := thread_function_spec h
  · exact hlog
  · exact hlog.write id

/-- Only a thread at its `sem_wait` can be blocked, and only at value 0. -/
theorem thread_function_eq_none (h : thread_function id sem log pc = none) :
    pc = .absent ∨ pc = .done ∨ pc = .waitSem ∧ sem = 0 := by
  unfold thread_function at h
  cases hpc : pc <;> simp only [hpc] at h <;> simp at h ⊢
  case waitSem => exact h

end Step

/-! ### The threads of a process -/

section Threads

variable {m lo hi j : ℕ} {thread : Fin m → ThreadPc} {f : ThreadPc → ℕ}

/-- The threads from `lo` up to `hi` exist, and no others. -/
def Filled (lo hi : ℕ) (thread : Fin m → ThreadPc) : Prop :=
  ∀ k : Fin m, thread k ≠ .absent ↔ lo ≤ k.val ∧ k.val < hi

theorem filled_absent (lo : ℕ) : Filled lo lo (fun _ : Fin m => ThreadPc.absent) := by
  intro k
  simp only [ne_eq, not_true_eq_false, false_iff]
  omega

/-- `pthread_create` of thread `j`. -/
theorem Filled.create (h : Filled 0 j thread) (hj : j < m) :
    Filled 0 (j + 1) (update thread ⟨j, hj⟩ .waitSem) := by
  intro k
  by_cases hk : k = ⟨j, hj⟩
  · subst hk
    simp
  · have hne : k.val ≠ j := fun heq => hk (Fin.ext heq)
    rw [Function.update_of_ne hk, h k]
    omega

/-- `pthread_join` of thread `j`. -/
theorem Filled.join (h : Filled j m thread) (hj : j < m) :
    Filled (j + 1) m (update thread ⟨j, hj⟩ .absent) := by
  intro k
  by_cases hk : k = ⟨j, hj⟩
  · subst hk
    simp
  · have hne : k.val ≠ j := fun heq => hk (Fin.ext heq)
    rw [Function.update_of_ne hk, h k]
    omega

/-- A step of a thread that exists. -/
theorem Filled.move (h : Filled lo hi thread) {k : Fin m} {pc : ThreadPc}
    (hk : thread k ≠ .absent) (hpc : pc ≠ .absent) : Filled lo hi (update thread k pc) := by
  intro l
  by_cases hl : l = k
  · subst hl
    rw [Function.update_self]
    exact ⟨fun _ => (h l).mp hk, fun _ => hpc⟩
  · rw [Function.update_of_ne hl]
    exact h l

/-- All threads created, all to be joined. -/
theorem Filled.all_joined (h : Filled m m thread) : Filled 0 0 thread := by
  intro k
  rw [h k]
  omega

theorem Filled.eq_absent (h : Filled lo hi thread) {k : Fin m} (hk : ¬ (lo ≤ k.val ∧ k.val < hi)) :
    thread k = .absent := by
  by_contra hne
  exact hk ((h k).mp hne)

/-- The count once thread `j` is created. -/
theorem Filled.tally_create (h : Filled 0 j thread) (hj : j < m) (hf : f .absent = 0) :
    tally f (update thread ⟨j, hj⟩ .waitSem) = tally f thread + f .waitSem := by
  have htally := tally_update f thread ⟨j, hj⟩ .waitSem
  rw [h.eq_absent (k := ⟨j, hj⟩) (by simp), hf] at htally
  exact htally

/-- The count once a thread that is over is joined. -/
theorem tally_join {k : Fin m} (hdone : thread k = .done) (hf : f .done = f .absent) :
    tally f (update thread k .absent) = tally f thread := by
  have htally := tally_update f thread k .absent
  rw [hdone, hf] at htally
  exact Nat.add_right_cancel htally

/-- With no thread left, there is nothing to count. -/
theorem Filled.tally_zero (h : Filled 0 0 thread) (hf : f .absent = 0) :
    tally f thread = 0 := by
  refine tally_eq_zero.mpr fun k => ?_
  rw [h.eq_absent (k := k) (by omega), hf]

end Threads

end AccessLog
