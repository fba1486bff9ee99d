/-
The request and the worker of Lab05/01 (`req_wrk.c`).

`main` creates a memory object and two semaphores of value 0, forks the worker and runs
`request` itself: it stores the numbers below `NUM`, posts `sem_req`, waits for `sem_wrk`
and prints what it finds.  `work` waits for `sem_req`, squares every element in place and
posts `sem_wrk`.  In the end `main` waits for the worker and unlinks the names.

* `program` — the two processes, one step for each semaphore operation and for each load
  and store of `data[i]`, with the names that are linked;
* `Inv` — how far each side has got, what the semaphores and the array hold then;
* `handoff` — what is loaded and printed, and that neither side is left waiting.
-/
import SistemiDiCalcolo.Machine
import SistemiDiCalcolo.Memory
import SistemiDiCalcolo.Transaction
import Mathlib.Data.List.Range

open Function (update)

namespace RequestWorker

/-- Program points of `main` and, from `openShm` to `release`, of `request`; `exited`
carries the exit status. -/
inductive MainPc
  | create
  | mmap
  | semOpen
  | fork
  | openShm
  | openReq
  | openWrk
  | generate (i : ℕ)
  | postReq
  | waitWrk
  | print (i : ℕ)
  | release
  | wait
  | unlinkWrk
  | unlinkReq
  | unlinkShm
  | exited (status : ℕ)
  deriving DecidableEq, Repr

/-- Program points of `work`; `reload` and `store` carry the values of `data[i]` loaded. -/
inductive WorkerPc
  | notForked
  | openReq
  | openWrk
  | waitReq
  | openShm
  | load (i : ℕ)
  | reload (i : ℕ) (x : CInt)
  | store (i : ℕ) (x y : CInt)
  | postWrk
  | release
  | exited (status : ℕ)
  deriving DecidableEq, Repr

/-- The names that are linked, the semaphores, the array and the processes; beside them
the elements that `request` has generated and those that `work` has squared. -/
structure State where
  shmName : Bool
  reqName : Bool
  wrkName : Bool
  semReq : ℕ
  semWrk : ℕ
  data : Memory CInt
  main : MainPc
  worker : WorkerPc
  printed : List CInt
  generated : ℕ → Bool
  squared : ℕ → Bool

inductive Process
  | main
  | worker
  deriving DecidableEq, Repr

section Program

variable (num : ℕ)

/-- The next step of `main` and `request`; `handle_error` exits with status 1. -/
def main (s : State) : Option State :=
  match s.main with
  | .create =>
    -- `shm_unlink`, `shm_open` with `O_CREAT | O_EXCL`, `ftruncate`
    some { s with shmName := true, main := .mmap }
  | .mmap =>
    -- an empty mapping is refused
    some { s with main := if num = 0 then .exited 1 else .semOpen }
  | .semOpen =>
    some { s with reqName := true, wrkName := true, semReq := 0, semWrk := 0, main := .fork }
  | .fork => some { s with worker := .openReq, main := .openShm }
  | .openShm =>
    some { s with main := if s.shmName = true ∧ num ≠ 0 then .openReq else .exited 1 }
  | .openReq => some { s with main := if s.reqName then .openWrk else .exited 1 }
  | .openWrk => some { s with main := if s.wrkName then .generate 0 else .exited 1 }
  | .generate i =>
    if i < num then
      some { s with
        data := update s.data i (BitVec.ofNat 32 i)
        generated := update s.generated i true
        main := .generate (i + 1) }
    else some { s with main := .postReq }
  | .postReq => some { s with semReq := s.semReq + 1, main := .waitWrk }
  | .waitWrk =>
    if 0 < s.semWrk then some { s with semWrk := s.semWrk - 1, main := .print 0 } else none
  | .print i =>
    if i < num then some { s with printed := s.printed ++ [s.data i], main := .print (i + 1) }
    else some { s with main := .release }
  | .release => some { s with main := .wait }
  | .wait =>
    match s.worker with
    | .exited status => some { s with main := if status = 0 then .unlinkWrk else .exited 1 }
    | _ => none
  | .unlinkWrk =>
    some { s with wrkName := false, main := if s.wrkName then .unlinkReq else .exited 1 }
  | .unlinkReq =>
    some { s with reqName := false, main := if s.reqName then .unlinkShm else .exited 1 }
  | .unlinkShm =>
    some { s with shmName := false, main := if s.shmName then .exited 0 else .exited 1 }
  | .exited _ => none

/-- The next step of `work`. -/
def work (s : State) : Option State :=
  match s.worker with
  | .openReq => some { s with worker := if s.reqName then .openWrk else .exited 1 }
  | .openWrk => some { s with worker := if s.wrkName then .waitReq else .exited 1 }
  | .waitReq =>
    if 0 < s.semReq then some { s with semReq := s.semReq - 1, worker := .openShm } else none
  | .openShm =>
    some { s with worker := if s.shmName = true ∧ num ≠ 0 then .load 0 else .exited 1 }
  | .load i =>
    if i < num then some { s with worker := .reload i (s.data i) }
    else some { s with worker := .postWrk }
  | .reload i x => some { s with worker := .store i x (s.data i) }
  | .store i x y =>
    some { s with
      data := update s.data i (x * y)
      squared := update s.squared i true
      worker := .load (i + 1) }
  | .postWrk => some { s with semWrk := s.semWrk + 1, worker := .release }
  | .release => some { s with worker := .exited 0 }
  | .notForked | .exited _ => none

/-- The next step of a process. -/
def step (s : State) : Process → Option State
  | .main => main num s
  | .worker => work num s

/-- Before `main`: names may be left from another run, and memory holds anything. -/
def start (shmName reqName wrkName : Bool) (data : Memory CInt) : State where
  shmName := shmName
  reqName := reqName
  wrkName := wrkName
  semReq := 0
  semWrk := 0
  data := data
  main := .create
  worker := .notForked
  printed := []
  generated _ := false
  squared _ := false

/-- The program for an array of `num` elements. -/
def program : Machine State Process where
  init s := ∃ shmName reqName wrkName data, s = start shmName reqName wrkName data
  step := step num

end Program

/-! ### How far each side has got -/

/-- `i * i` as an `int`. -/
def square (i : ℕ) : CInt := BitVec.ofNat 32 i * BitVec.ofNat 32 i

/-- What the parent has done: the names it keeps linked, whether the worker is forked, the
elements generated and printed, the semaphore operations, and whether the worker has been
waited for. -/
structure MainProgress where
  shm : Bool := false
  req : Bool := false
  wrk : Bool := false
  forked : Bool := false
  generated : ℕ := 0
  posted : ℕ := 0
  taken : ℕ := 0
  printed : ℕ := 0
  waited : Bool := false

/-- What the worker has done: the semaphore operations and the elements squared. -/
structure WorkerProgress where
  took : ℕ := 0
  squared : ℕ := 0
  answered : ℕ := 0

namespace MainProgress

/-- `request` is at work. -/
def requesting (generated posted taken printed : ℕ) : MainProgress where
  shm := true
  req := true
  wrk := true
  forked := true
  generated := generated
  posted := posted
  taken := taken
  printed := printed

/-- `request` has returned and the worker has exited. -/
def cleaning (num : ℕ) (shm req wrk : Bool) : MainProgress where
  shm := shm
  req := req
  wrk := wrk
  forked := true
  generated := num
  posted := 1
  taken := 1
  printed := num
  waited := true

end MainProgress

def MainPc.progress (num : ℕ) : MainPc → MainProgress
  | .create | .exited (_ + 1) => {}
  | .mmap | .semOpen => { shm := true }
  | .fork => { shm := true, req := true, wrk := true }
  | .openShm | .openReq | .openWrk => .requesting 0 0 0 0
  | .generate i => .requesting i 0 0 0
  | .postReq => .requesting num 0 0 0
  | .waitWrk => .requesting num 1 0 0
  | .print i => .requesting num 1 1 i
  | .release | .wait => .requesting num 1 1 num
  | .unlinkWrk => .cleaning num true true true
  | .unlinkReq => .cleaning num true true false
  | .unlinkShm => .cleaning num true false false
  | .exited 0 => .cleaning num false false false

def WorkerPc.progress (num : ℕ) : WorkerPc → WorkerProgress
  | .notForked | .openReq | .openWrk | .waitReq | .exited (_ + 1) => {}
  | .openShm => { took := 1 }
  | .load i | .reload i _ | .store i _ _ => { took := 1, squared := i }
  | .postWrk => { took := 1, squared := num }
  | .release | .exited 0 => { took := 1, squared := num, answered := 1 }

/-- The counters of the loops are in range; only an empty array makes `main` fail. -/
def MainPc.Ok (num : ℕ) : MainPc → Prop
  | .create | .mmap => True
  | .exited (_ + 1) => num = 0
  | .generate i | .print i => 0 < num ∧ i ≤ num
  | _ => 0 < num

/-- The counter of the loop is in range, with the values loaded; the worker does not
fail. -/
def WorkerPc.Ok (num : ℕ) : WorkerPc → Prop
  | .exited (_ + 1) => False
  | .load i => i ≤ num
  | .reload i x => i < num ∧ x = BitVec.ofNat 32 i
  | .store i x y => i < num ∧ x = BitVec.ofNat 32 i ∧ y = BitVec.ofNat 32 i
  | _ => True

/-- `main` has not come to `request`. -/
def MainPc.SettingUp : MainPc → Prop
  | .create | .mmap | .semOpen | .fork => True
  | _ => False

/-- `main` is in `request`. -/
def MainPc.Requesting : MainPc → Prop
  | .openShm | .openReq | .openWrk | .generate _ | .postReq | .waitWrk | .print _ | .release => True
  | _ => False

/-- `request` has returned, or `main` has failed. -/
def MainPc.Cleaning : MainPc → Prop
  | .wait | .unlinkWrk | .unlinkReq | .unlinkShm | .exited _ => True
  | _ => False

section Points

variable {num : ℕ}

theorem MainPc.stages (pc : MainPc) : pc.SettingUp ∨ pc.Requesting ∨ pc.Cleaning := by
  cases pc with
  | create | mmap | semOpen | fork => exact .inl trivial
  | openShm | openReq | openWrk | generate i | postReq | waitWrk | print i | release =>
    exact .inr (.inl trivial)
  | wait | unlinkWrk | unlinkReq | unlinkShm | exited status => exact .inr (.inr trivial)

/-- A side that has answered has done its part before. -/
theorem MainPc.generated_of_posted {pc : MainPc} (h : 0 < (pc.progress num).posted) :
    (pc.progress num).generated = num := by
  cases pc with
  | exited status => cases status <;> first | rfl | exact absurd h (lt_irrefl 0)
  | waitWrk | print i | release | wait | unlinkWrk | unlinkReq | unlinkShm => rfl
  | create | mmap | semOpen | fork | openShm | openReq | openWrk | generate i | postReq =>
    exact absurd h (lt_irrefl 0)

theorem WorkerPc.squared_of_answered {pc : WorkerPc} (h : 0 < (pc.progress num).answered) :
    (pc.progress num).squared = num := by
  cases pc with
  | exited status => cases status <;> first | rfl | exact absurd h (lt_irrefl 0)
  | release => rfl
  | notForked | openReq | openWrk | waitReq | openShm | load i | reload i x | store i x y
  | postWrk => exact absurd h (lt_irrefl 0)

theorem WorkerPc.squared_of_took {pc : WorkerPc} (h : (pc.progress num).took = 0) :
    (pc.progress num).squared = 0 := by
  cases pc with
  | exited status => cases status <;> first | rfl | exact absurd h one_ne_zero
  | notForked | openReq | openWrk | waitReq => rfl
  | openShm | load i | reload i x | store i x y | postWrk | release => exact absurd h one_ne_zero

/-- The names stay linked until the worker has been waited for. -/
theorem MainPc.names_of_forked {pc : MainPc} (h : (pc.progress num).forked = true)
    (hwaited : (pc.progress num).waited = false) :
    (pc.progress num).shm = true ∧ (pc.progress num).req = true ∧ (pc.progress num).wrk = true := by
  cases pc with
  | exited status =>
    cases status with
    | zero => cases hwaited
    | succ status => cases h
  | create | mmap | semOpen | fork => cases h
  | unlinkWrk | unlinkReq | unlinkShm => cases hwaited
  | openShm | openReq | openWrk | generate i | postReq | waitWrk | print i | release | wait =>
    exact ⟨rfl, rfl, rfl⟩

theorem MainPc.pos_of_forked {pc : MainPc} (h : (pc.progress num).forked = true) (hok : pc.Ok num) :
    0 < num := by
  cases pc with
  | exited status =>
    cases status with
    | zero => exact hok
    | succ status => cases h
  | create | mmap | semOpen | fork => cases h
  | generate i | print i => exact hok.1
  | openShm | openReq | openWrk | postReq | waitWrk | release | wait | unlinkWrk | unlinkReq
  | unlinkShm => exact hok

end Points

/-! ### The invariant -/

section Inv

variable {num : ℕ} {s s' : State}

/-- What the names, the semaphores and the array are when each side has got so far. -/
structure Inv (num : ℕ) (s : State) : Prop where
  shm : (s.main.progress num).shm = true → s.shmName = true
  req : (s.main.progress num).req = true → s.reqName = true
  wrk : (s.main.progress num).wrk = true → s.wrkName = true
  forked : (s.main.progress num).forked = false ↔ s.worker = .notForked
  semReq : s.semReq + (s.worker.progress num).took = (s.main.progress num).posted
  semWrk : s.semWrk + (s.main.progress num).taken = (s.worker.progress num).answered
  waited : (s.main.progress num).waited = true → s.worker = .exited 0
  main : s.main.Ok num
  worker : s.worker.Ok num
  data : ∀ k, k < (s.main.progress num).generated →
    s.data k = if k < (s.worker.progress num).squared then square k else BitVec.ofNat 32 k
  generated : ∀ k, s.generated k = decide (k < (s.main.progress num).generated)
  squared : ∀ k, s.squared k = decide (k < (s.worker.progress num).squared)
  printed : s.printed = (List.range (s.main.progress num).printed).map square

theorem inv_start (shmName reqName wrkName : Bool) (data : Memory CInt) :
    Inv num (start shmName reqName wrkName data) where
  shm h := by cases h
  req h := by cases h
  wrk h := by cases h
  forked := ⟨fun _ => rfl, fun _ => rfl⟩
  semReq := rfl
  semWrk := rfl
  waited h := by cases h
  main := trivial
  worker := trivial
  data k hk := absurd hk (Nat.not_lt_zero k)
  generated k := (decide_eq_false (Nat.not_lt_zero k)).symm
  squared k := (decide_eq_false (Nat.not_lt_zero k)).symm
  printed := rfl

theorem Inv.main_ok (hs : Inv num s) {pc : MainPc} (hpc : s.main = pc) : pc.Ok num := hpc ▸ hs.main

theorem Inv.worker_ok (hs : Inv num s) {pc : WorkerPc} (hpc : s.worker = pc) : pc.Ok num :=
  hpc ▸ hs.worker

/-- The semaphores, where the parent is known to be. -/
theorem Inv.sems_of_main (hs : Inv num s) {pc : MainPc} (hpc : s.main = pc) :
    s.semReq + (s.worker.progress num).took = (pc.progress num).posted ∧
      s.semWrk + (pc.progress num).taken = (s.worker.progress num).answered :=
  hpc ▸ ⟨hs.semReq, hs.semWrk⟩

/-- The semaphores, where the worker is known to be. -/
theorem Inv.sems_of_worker (hs : Inv num s) {pc : WorkerPc} (hpc : s.worker = pc) :
    s.semReq + (pc.progress num).took = (s.main.progress num).posted ∧
      s.semWrk + (s.main.progress num).taken = (pc.progress num).answered :=
  hpc ▸ ⟨hs.semReq, hs.semWrk⟩

/-- A step of the parent that leaves the elements alone. -/
theorem Inv.of_parent (hs : Inv num s) {pc pc' : MainPc} (hpc : s.main = pc)
    {shm req wrk : Bool} {semReq semWrk : ℕ}
    (hnames : ((pc'.progress num).shm = true → shm = true) ∧
      ((pc'.progress num).req = true → req = true) ∧
      ((pc'.progress num).wrk = true → wrk = true))
    (hforked : (pc'.progress num).forked = (pc.progress num).forked)
    (hsems : semReq + (s.worker.progress num).took = (pc'.progress num).posted ∧
      semWrk + (pc'.progress num).taken = (s.worker.progress num).answered)
    (hwaited : (pc'.progress num).waited = true → s.worker = .exited 0)
    (hgenerated : (pc'.progress num).generated = (pc.progress num).generated)
    (hprinted : (pc'.progress num).printed = (pc.progress num).printed) (hok : pc'.Ok num) :
    Inv num { s with
      shmName := shm
      reqName := req
      wrkName := wrk
      semReq := semReq
      semWrk := semWrk
      main := pc' } := by
  obtain ⟨-, -, -, hfork, -, -, -, -, hworker, hdata, hgen, hsquared, hprint⟩ := hs
  rw [hpc, ← hforked] at hfork
  rw [hpc, ← hgenerated] at hdata hgen
  rw [hpc, ← hprinted] at hprint
  exact ⟨hnames.1, hnames.2.1, hnames.2.2, hfork, hsems.1, hsems.2, hwaited, hok, hworker, hdata,
    hgen, hsquared, hprint⟩

/-- The names, where the parent is known to be. -/
theorem Inv.names_of_main (hs : Inv num s) {pc : MainPc} (hpc : s.main = pc) :
    ((pc.progress num).shm = true → s.shmName = true) ∧
      ((pc.progress num).req = true → s.reqName = true) ∧
      ((pc.progress num).wrk = true → s.wrkName = true) :=
  hpc ▸ ⟨hs.shm, hs.req, hs.wrk⟩

/-- A step of the parent that does nothing the worker can see. -/
theorem Inv.of_main (hs : Inv num s) {pc pc' : MainPc} (hpc : s.main = pc)
    (hp : pc'.progress num = pc.progress num) (hok : pc'.Ok num) :
    Inv num { s with main := pc' } := by
  have hwaited : (pc.progress num).waited = true → s.worker = .exited 0 := hpc ▸ hs.waited
  refine hs.of_parent hpc ?_ ?_ ?_ ?_ ?_ ?_ hok
  all_goals rw [hp]
  · exact hs.names_of_main hpc
  · exact hs.sems_of_main hpc
  · exact hwaited

/-- A step of the worker that leaves the elements alone. -/
theorem Inv.of_child (hs : Inv num s) {pc pc' : WorkerPc} (hpc : s.worker = pc)
    {semReq semWrk : ℕ}
    (hsems : semReq + (pc'.progress num).took = (s.main.progress num).posted ∧
      semWrk + (s.main.progress num).taken = (pc'.progress num).answered)
    (hsquared : (pc'.progress num).squared = (pc.progress num).squared) (hok : pc'.Ok num)
    (hforked : pc ≠ .notForked) (hforked' : pc' ≠ .notForked) (hrun : pc ≠ .exited 0) :
    Inv num { s with semReq := semReq, semWrk := semWrk, worker := pc' } := by
  obtain ⟨hshm, hreq, hwrk, hfork, -, -, hwaited, hmain, -, hdata, hgenerated, hsq, hprinted⟩ := hs
  rw [hpc] at hfork hwaited
  rw [hpc, ← hsquared] at hdata hsq
  exact ⟨hshm, hreq, hwrk, ⟨fun h => absurd (hfork.mp h) hforked, fun h => absurd h hforked'⟩,
    hsems.1, hsems.2, fun h => absurd (hwaited h) hrun, hmain, hok, hdata, hgenerated, hsq,
    hprinted⟩

/-- A step of the worker that does nothing the parent can see. -/
theorem Inv.of_worker (hs : Inv num s) {pc pc' : WorkerPc} (hpc : s.worker = pc)
    (hp : pc'.progress num = pc.progress num) (hok : pc'.Ok num) (hforked : pc ≠ .notForked)
    (hforked' : pc' ≠ .notForked) (hrun : pc ≠ .exited 0) :
    Inv num { s with worker := pc' } := by
  refine hs.of_child hpc ?_ ?_ hok hforked hforked' hrun
  all_goals rw [hp]
  exact hs.sems_of_worker hpc

/-- The worker has not taken anything before the parent has posted. -/
theorem Inv.took_eq_zero (hs : Inv num s) (h : (s.main.progress num).posted = 0) :
    (s.worker.progress num).took = 0 := by
  have := hs.semReq
  omega

/-- When the worker is past its `sem_wait`, all elements are generated. -/
theorem Inv.generated_eq (hs : Inv num s) (h : 0 < (s.worker.progress num).took) :
    (s.main.progress num).generated = num := by
  have := hs.semReq
  exact MainPc.generated_of_posted (by omega)

/-- The next element for the worker is as `request` has stored it. -/
theorem Inv.data_eq (hs : Inv num s) {i : ℕ} (htook : 0 < (s.worker.progress num).took)
    (hsq : (s.worker.progress num).squared = i) (hi : i < num) : s.data i = BitVec.ofNat 32 i := by
  have hvalue := hs.data i (by rwa [hs.generated_eq htook])
  rwa [hsq, if_neg (lt_irrefl i)] at hvalue

/-- When the parent is past its `sem_wait`, all elements are squared. -/
theorem Inv.squared_eq (hs : Inv num s) (h : 0 < (s.main.progress num).taken) :
    (s.worker.progress num).squared = num := by
  have := hs.semWrk
  exact WorkerPc.squared_of_answered (by omega)

/-- As long as the worker has not exited, the names are linked. -/
theorem Inv.names (hs : Inv num s) (hfork : s.worker ≠ .notForked) (hrun : s.worker ≠ .exited 0) :
    s.shmName = true ∧ s.reqName = true ∧ s.wrkName = true ∧ 0 < num := by
  have hforked : (s.main.progress num).forked = true :=
    Bool.eq_true_of_not_eq_false fun h => hfork (hs.forked.mp h)
  have hwaited : (s.main.progress num).waited = false :=
    Bool.eq_false_of_not_eq_true fun h => hrun (hs.waited h)
  obtain ⟨hshm, hreq, hwrk⟩ := MainPc.names_of_forked hforked hwaited
  exact ⟨hs.shm hshm, hs.req hreq, hs.wrk hwrk, MainPc.pos_of_forked hforked hs.main⟩

/-- A mark on the elements below `i`, with one more. -/
theorem update_lt_succ {f : ℕ → Bool} {i : ℕ} (h : ∀ k, f k = decide (k < i)) :
    ∀ k, update f i true k = decide (k < i + 1) := by
  refine (Function.forall_update_iff f fun k b => b = decide (k < i + 1)).mpr
    ⟨(decide_eq_true (Nat.lt_succ_self i)).symm, fun k hk => ?_⟩
  rw [h k]
  exact decide_eq_decide.mpr ⟨Nat.lt_succ_of_lt, fun hlt =>
    (Nat.lt_succ_iff_lt_or_eq.mp hlt).resolve_right hk⟩

/-- `request` stores an element. -/
theorem Inv.generate (hs : Inv num s) {i : ℕ} (hpc : s.main = .generate i) (hi : i < num) :
    Inv num { s with
      data := update s.data i (BitVec.ofNat 32 i)
      generated := update s.generated i true
      main := .generate (i + 1) } := by
  have htook := hs.took_eq_zero (by rw [hpc]; rfl)
  have hzero := WorkerPc.squared_of_took htook
  obtain ⟨hshm, hreq, hwrk, hforked, hsemReq, hsemWrk, hwaited, hmain, hworker, hdata, hgenerated,
    hsquared, hprinted⟩ := hs
  rw [hpc] at hshm hreq hwrk hforked hsemReq hsemWrk hwaited hmain hdata hgenerated hprinted
  refine ⟨hshm, hreq, hwrk, hforked, hsemReq, hsemWrk, hwaited, ⟨hmain.1, hi⟩, hworker,
    fun k hk => ?_, update_lt_succ hgenerated, hsquared, hprinted⟩
  show update s.data i (BitVec.ofNat 32 i) k = _
  rcases Nat.lt_succ_iff_lt_or_eq.mp hk with hlt | rfl
  · rw [Function.update_of_ne hlt.ne]
    exact hdata k hlt
  · rw [Function.update_self, hzero, if_neg (Nat.not_lt_zero _)]

/-- `request` prints an element. -/
theorem Inv.print (hs : Inv num s) {i : ℕ} (hpc : s.main = .print i) (hi : i < num) :
    Inv num { s with printed := s.printed ++ [s.data i], main := .print (i + 1) } := by
  have hsq := hs.squared_eq (by rw [hpc]; exact Nat.one_pos)
  have hvalue := hs.data i (by rw [hpc]; exact hi)
  rw [hsq, if_pos hi] at hvalue
  obtain ⟨hshm, hreq, hwrk, hforked, hsemReq, hsemWrk, hwaited, hmain, hworker, hdata, hgenerated,
    hsquared, hprinted⟩ := hs
  rw [hpc] at hshm hreq hwrk hforked hsemReq hsemWrk hwaited hmain hdata hgenerated hprinted
  refine ⟨hshm, hreq, hwrk, hforked, hsemReq, hsemWrk, hwaited, ⟨hmain.1, hi⟩, hworker, hdata,
    hgenerated, hsquared, ?_⟩
  show s.printed ++ [s.data i] = (List.range (i + 1)).map square
  rw [hprinted, hvalue, List.range_succ, List.map_append]
  rfl

/-- The worker stores a square. -/
theorem Inv.store (hs : Inv num s) {i : ℕ} {x y : CInt} (hpc : s.worker = .store i x y) :
    Inv num { s with
      data := update s.data i (x * y)
      squared := update s.squared i true
      worker := .load (i + 1) } := by
  have hgen := hs.generated_eq (by rw [hpc]; exact Nat.one_pos)
  obtain ⟨hshm, hreq, hwrk, hforked, hsemReq, hsemWrk, hwaited, hmain, hworker, hdata, hgenerated,
    hsquared, hprinted⟩ := hs
  rw [hpc] at hforked hsemReq hsemWrk hwaited hworker hdata hsquared
  obtain ⟨hi, rfl, rfl⟩ := hworker
  refine ⟨hshm, hreq, hwrk, hforked.trans ⟨nofun, nofun⟩, hsemReq, hsemWrk, fun h => ?_, hmain, hi,
    ?_, hgenerated, update_lt_succ hsquared, hprinted⟩
  · cases hwaited h
  · intro k hk
    show update s.data i (square i) k = if k < i + 1 then square k else BitVec.ofNat 32 k
    by_cases hki : k = i
    · subst hki
      rw [Function.update_self, if_pos (Nat.lt_succ_self k)]
    · rw [Function.update_of_ne hki, hdata k hk]
      have hiff : k < i + 1 ↔ k < i :=
        ⟨fun h => (Nat.lt_succ_iff_lt_or_eq.mp h).resolve_right hki, Nat.lt_succ_of_lt⟩
      simp only [hiff]
      rfl

/-- `main` forks the worker. -/
theorem Inv.fork (hs : Inv num s) (hpc : s.main = .fork) :
    Inv num { s with worker := .openReq, main := .openShm } := by
  obtain ⟨hshm, hreq, hwrk, hforked, hsemReq, hsemWrk, -, hmain, -, hdata, hgenerated, hsquared,
    hprinted⟩ := hs
  rw [hpc] at hshm hreq hwrk hforked hsemReq hsemWrk hmain hdata hgenerated hprinted
  rw [hforked.mp rfl] at hsemReq hsemWrk hdata hsquared
  exact ⟨hshm, hreq, hwrk, ⟨nofun, nofun⟩, hsemReq, hsemWrk, nofun, hmain, trivial, hdata,
    hgenerated, hsquared, hprinted⟩

/-- A step of `main` after the worker has exited. -/
theorem Inv.unlink (hs : Inv num s) {pc pc' : MainPc} {a b c a' b' c' shm req wrk : Bool}
    (hpc : s.main = pc) (hp : pc.progress num = .cleaning num a b c)
    (hp' : pc'.progress num = .cleaning num a' b' c')
    (hnames : (a' = true → shm = true) ∧ (b' = true → req = true) ∧ (c' = true → wrk = true))
    (hok : pc'.Ok num) :
    Inv num { s with shmName := shm, reqName := req, wrkName := wrk, main := pc' } := by
  have hsems := hs.sems_of_main hpc
  have hwaited : (pc.progress num).waited = true → s.worker = .exited 0 := hpc ▸ hs.waited
  rw [hp] at hsems hwaited
  refine hs.of_parent hpc ?_ ?_ ?_ ?_ ?_ ?_ hok
  all_goals rw [hp']
  · exact hnames
  · rw [hp]
    rfl
  · exact hsems
  · exact hwaited
  · rw [hp]
    rfl
  · rw [hp]
    rfl

theorem Inv.step_settingUp (hs : Inv num s) (hstage : s.main.SettingUp)
    (h : RequestWorker.main num s = some s') : Inv num s' := by
  unfold RequestWorker.main at h
  cases hpc : s.main with
  | create =>
    rw [hpc] at h
    cases h
    have hsems := hs.sems_of_main hpc
    exact hs.of_parent hpc ⟨fun _ => rfl, nofun, nofun⟩ rfl hsems nofun rfl rfl trivial
  | mmap =>
    rw [hpc] at h
    simp only at h
    split_ifs at h with hnum
    · cases h
      have hsems := hs.sems_of_main hpc
      exact hs.of_parent hpc ⟨nofun, nofun, nofun⟩ rfl hsems nofun rfl rfl hnum
    · cases h
      exact hs.of_main hpc rfl (Nat.pos_of_ne_zero hnum)
  | semOpen =>
    rw [hpc] at h
    cases h
    have hworker : s.worker = .notForked := hs.forked.mp (by rw [hpc]; rfl)
    have hsems : 0 + (s.worker.progress num).took = 0 ∧
        0 = (s.worker.progress num).answered := by
      rw [hworker]
      exact ⟨rfl, rfl⟩
    have hnames := hs.names_of_main hpc
    have hpos : 0 < num := hs.main_ok hpc
    exact hs.of_parent hpc ⟨hnames.1, fun _ => rfl, fun _ => rfl⟩ rfl hsems nofun rfl rfl hpos
  | fork =>
    rw [hpc] at h
    cases h
    exact hs.fork hpc
  | openShm | openReq | openWrk | generate i | postReq | waitWrk | print i | release | wait
  | unlinkWrk | unlinkReq | unlinkShm | exited status =>
    rw [hpc] at hstage
    exact hstage.elim

theorem Inv.step_requesting (hs : Inv num s) (hstage : s.main.Requesting)
    (h : RequestWorker.main num s = some s') : Inv num s' := by
  unfold RequestWorker.main at h
  cases hpc : s.main with
  | openShm =>
    rw [hpc] at h
    cases h
    have hpos : 0 < num := hs.main_ok hpc
    -- `main` has not come to its calls of `unlink`
    have hshm : s.shmName = true := hs.shm (by rw [hpc]; rfl)
    rw [if_pos ⟨hshm, hpos.ne'⟩]
    exact hs.of_main hpc rfl hpos
  | openReq =>
    rw [hpc] at h
    cases h
    have hpos : 0 < num := hs.main_ok hpc
    have hreq : s.reqName = true := hs.req (by rw [hpc]; rfl)
    rw [if_pos hreq]
    exact hs.of_main hpc rfl hpos
  | openWrk =>
    rw [hpc] at h
    cases h
    have hpos : 0 < num := hs.main_ok hpc
    have hwrk : s.wrkName = true := hs.wrk (by rw [hpc]; rfl)
    rw [if_pos hwrk]
    exact hs.of_main hpc rfl ⟨hpos, Nat.zero_le num⟩
  | generate i =>
    rw [hpc] at h
    simp only at h
    split_ifs at h with hi
    · cases h
      exact hs.generate hpc hi
    · cases h
      have hmain : 0 < num ∧ i ≤ num := hs.main_ok hpc
      obtain rfl : i = num := Nat.le_antisymm hmain.2 (Nat.le_of_not_lt hi)
      exact hs.of_main hpc rfl hmain.1
  | postReq =>
    rw [hpc] at h
    cases h
    obtain ⟨hsemReq, hsemWrk⟩ := hs.sems_of_main hpc
    -- the worker takes what is posted here
    have hposted : s.semReq + 1 + (s.worker.progress num).took = 1 := by
      rw [Nat.add_right_comm, hsemReq]
      rfl
    have hnames := hs.names_of_main hpc
    have hpos : 0 < num := hs.main_ok hpc
    exact hs.of_parent hpc hnames rfl ⟨hposted, hsemWrk⟩ nofun rfl rfl hpos
  | waitWrk =>
    rw [hpc] at h
    simp only at h
    split_ifs at h with hpos
    cases h
    obtain ⟨hsemReq, hsemWrk⟩ := hs.sems_of_main hpc
    have htaken : s.semWrk - 1 + 1 = (s.worker.progress num).answered := by
      rw [Nat.sub_add_cancel hpos]
      exact hsemWrk
    have hnames := hs.names_of_main hpc
    have hpos : 0 < num := hs.main_ok hpc
    exact hs.of_parent hpc hnames rfl ⟨hsemReq, htaken⟩ nofun rfl rfl ⟨hpos, Nat.zero_le num⟩
  | print i =>
    rw [hpc] at h
    simp only at h
    split_ifs at h with hi
    · cases h
      exact hs.print hpc hi
    · cases h
      have hmain : 0 < num ∧ i ≤ num := hs.main_ok hpc
      obtain rfl : i = num := Nat.le_antisymm hmain.2 (Nat.le_of_not_lt hi)
      exact hs.of_main hpc rfl hmain.1
  | release =>
    rw [hpc] at h
    cases h
    have hpos : 0 < num := hs.main_ok hpc
    exact hs.of_main hpc rfl hpos
  | create | mmap | semOpen | fork | wait | unlinkWrk | unlinkReq | unlinkShm | exited status =>
    rw [hpc] at hstage
    exact hstage.elim

theorem Inv.step_cleaning (hs : Inv num s) (hstage : s.main.Cleaning)
    (h : RequestWorker.main num s = some s') : Inv num s' := by
  unfold RequestWorker.main at h
  cases hpc : s.main with
  | wait =>
    rw [hpc] at h
    simp only at h
    split at h
    · next status hworker =>
      cases h
      -- the worker has not failed
      have hok := hs.worker
      rw [hworker] at hok
      cases status with
      | succ status => exact hok.elim
      | zero =>
        have hnames := hs.names_of_main hpc
        have hsems := hs.sems_of_main hpc
        have hpos : 0 < num := hs.main_ok hpc
        exact hs.of_parent hpc hnames rfl hsems (fun _ => hworker) rfl rfl hpos
    · cases h
  | unlinkWrk =>
    rw [hpc] at h
    cases h
    obtain ⟨hshm, hreq, hwrk⟩ := hs.names_of_main hpc
    rw [if_pos (hwrk rfl)]
    have hpos : 0 < num := hs.main_ok hpc
    exact hs.unlink hpc rfl rfl ⟨hshm, hreq, nofun⟩ hpos
  | unlinkReq =>
    rw [hpc] at h
    cases h
    obtain ⟨hshm, hreq, -⟩ := hs.names_of_main hpc
    rw [if_pos (hreq rfl)]
    have hpos : 0 < num := hs.main_ok hpc
    exact hs.unlink hpc rfl rfl ⟨hshm, nofun, nofun⟩ hpos
  | unlinkShm =>
    rw [hpc] at h
    cases h
    obtain ⟨hshm, -, -⟩ := hs.names_of_main hpc
    rw [if_pos (hshm rfl)]
    have hpos : 0 < num := hs.main_ok hpc
    exact hs.unlink hpc rfl rfl ⟨nofun, nofun, nofun⟩ hpos
  | exited status =>
    rw [hpc] at h
    cases h
  | create | mmap | semOpen | fork | openShm | openReq | openWrk | generate i | postReq | waitWrk
  | print i | release =>
    rw [hpc] at hstage
    exact hstage.elim

theorem Inv.step_main (hs : Inv num s) (h : RequestWorker.main num s = some s') : Inv num s' := by
  rcases s.main.stages with hstage | hstage | hstage
  · exact hs.step_settingUp hstage h
  · exact hs.step_requesting hstage h
  · exact hs.step_cleaning hstage h

theorem Inv.step_work (hs : Inv num s) (h : work num s = some s') : Inv num s' := by
  unfold work at h
  cases hpc : s.worker with
  | openReq =>
    rw [hpc] at h
    cases h
    -- the names go when the worker has ended
    obtain ⟨-, hreq, -, -⟩ := hs.names (by rw [hpc]; nofun) (by rw [hpc]; nofun)
    rw [if_pos hreq]
    exact hs.of_worker hpc rfl trivial nofun nofun nofun
  | openWrk =>
    rw [hpc] at h
    cases h
    obtain ⟨-, -, hwrk, -⟩ := hs.names (by rw [hpc]; nofun) (by rw [hpc]; nofun)
    rw [if_pos hwrk]
    exact hs.of_worker hpc rfl trivial nofun nofun nofun
  | waitReq =>
    rw [hpc] at h
    simp only at h
    split_ifs at h with hpos
    cases h
    obtain ⟨hsemReq, hsemWrk⟩ := hs.sems_of_worker hpc
    have htook : s.semReq - 1 + 1 = (s.main.progress num).posted := by
      rw [Nat.sub_add_cancel hpos]
      exact hsemReq
    exact hs.of_child hpc ⟨htook, hsemWrk⟩ rfl trivial nofun nofun nofun
  | openShm =>
    rw [hpc] at h
    cases h
    obtain ⟨hshm, -, -, hnum⟩ := hs.names (by rw [hpc]; nofun) (by rw [hpc]; nofun)
    rw [if_pos ⟨hshm, hnum.ne'⟩]
    exact hs.of_worker hpc rfl (Nat.zero_le num) nofun nofun nofun
  | load i =>
    rw [hpc] at h
    simp only at h
    split_ifs at h with hi
    · cases h
      have hvalue := hs.data_eq (by rw [hpc]; exact Nat.one_pos) (by rw [hpc]; rfl) hi
      exact hs.of_worker hpc rfl ⟨hi, hvalue⟩ nofun nofun nofun
    · cases h
      obtain rfl : i = num := Nat.le_antisymm (hs.worker_ok hpc) (Nat.le_of_not_lt hi)
      exact hs.of_worker hpc rfl trivial nofun nofun nofun
  | reload i x =>
    rw [hpc] at h
    cases h
    obtain ⟨hi, hx⟩ := hs.worker_ok hpc
    have hvalue := hs.data_eq (by rw [hpc]; exact Nat.one_pos) (by rw [hpc]; rfl) hi
    exact hs.of_worker hpc rfl ⟨hi, hx, hvalue⟩ nofun nofun nofun
  | store i x y =>
    rw [hpc] at h
    cases h
    exact hs.store hpc
  | postWrk =>
    rw [hpc] at h
    cases h
    obtain ⟨hsemReq, hsemWrk⟩ := hs.sems_of_worker hpc
    have hanswered : s.semWrk + 1 + (s.main.progress num).taken = 1 := by
      rw [Nat.add_right_comm, hsemWrk]
      rfl
    exact hs.of_child hpc ⟨hsemReq, hanswered⟩ rfl trivial nofun nofun nofun
  | release =>
    rw [hpc] at h
    cases h
    exact hs.of_worker hpc rfl trivial nofun nofun nofun
  | notForked | exited status =>
    rw [hpc] at h
    cases h

theorem inv_of_reachable (h : (program num).Reachable s) : Inv num s := by
  refine h.invariant ?_ fun s t s' _ hs hstep => ?_
  · rintro s ⟨shmName, reqName, wrkName, data, rfl⟩
    exact inv_start shmName reqName wrkName data
  · cases t with
    | main => exact hs.step_main hstep
    | worker => exact hs.step_work hstep

/-! ### The handoff -/

/-- The next step of the worker loads `data[i]`. -/
def WorkerPc.Loads (num i : ℕ) : WorkerPc → Prop
  | .load j => j = i ∧ i < num
  | .reload j _ => j = i
  | _ => False

/-- The worker has opened the semaphores and mapped the array. -/
def WorkerPc.Opened : WorkerPc → Prop
  | .load _ | .reload _ _ | .store _ _ _ | .postWrk | .release | .exited 0 => True
  | _ => False

/-- `request` has returned. -/
def MainPc.Returned : MainPc → Prop
  | .wait | .unlinkWrk | .unlinkReq | .unlinkShm | .exited 0 => True
  | _ => False

/-- `main` has come to the place where it unlinks the names. -/
def MainPc.Unlinks : MainPc → Prop
  | .unlinkWrk | .unlinkReq | .unlinkShm | .exited 0 => True
  | _ => False

theorem MainPc.printed_of_returned {pc : MainPc} (h : pc.Returned) :
    (pc.progress num).printed = num := by
  cases pc with
  | wait | unlinkWrk | unlinkReq | unlinkShm => rfl
  | exited status =>
    cases status with
    | zero => rfl
    | succ status => exact h.elim
  | create | mmap | semOpen | fork | openShm | openReq | openWrk | generate i | postReq | waitWrk
  | print i | release => exact h.elim

theorem MainPc.printed_le {pc : MainPc} (hok : pc.Ok num) : (pc.progress num).printed ≤ num := by
  cases pc with
  | print i => exact hok.2
  | release | wait | unlinkWrk | unlinkReq | unlinkShm => exact le_rfl
  | exited status => cases status <;> first | exact le_rfl | exact Nat.zero_le num
  | create | mmap | semOpen | fork | openShm | openReq | openWrk | generate i | postReq | waitWrk =>
    exact Nat.zero_le num

theorem MainPc.waited_of_unlinks {pc : MainPc} (h : pc.Unlinks) :
    (pc.progress num).waited = true := by
  cases pc with
  | unlinkWrk | unlinkReq | unlinkShm => rfl
  | exited status =>
    cases status with
    | zero => rfl
    | succ status => exact h.elim
  | create | mmap | semOpen | fork | openShm | openReq | openWrk | generate i | postReq | waitWrk
  | print i | release | wait => exact h.elim

/-- What the worker is about to load has been stored by `request`. -/
theorem Inv.generated_of_loads (hs : Inv num s) {i : ℕ} (h : s.worker.Loads num i) :
    s.generated i = true := by
  have hstored : 0 < (s.worker.progress num).took → i < num → s.generated i = true := by
    intro htook hi
    rw [hs.generated i, hs.generated_eq htook]
    exact decide_eq_true hi
  cases hpc : s.worker with
  | load j =>
    rw [hpc] at h hstored
    exact hstored Nat.one_pos h.2
  | reload j x =>
    have hok := hs.worker_ok hpc
    rw [hpc] at h hstored
    obtain rfl : j = i := h
    exact hstored Nat.one_pos hok.1
  | notForked | openReq | openWrk | waitReq | openShm | store j x y | postWrk | release
  | exited status =>
    rw [hpc] at h
    exact h.elim

/-- The worker can move unless it has not been forked, waits for an array that is not
posted, or has exited. -/
theorem worker_of_stuck (h : work num s = none) :
    s.worker = .notForked ∨ s.worker = .waitReq ∧ s.semReq = 0 ∨
      ∃ status, s.worker = .exited status := by
  unfold work at h
  cases hpc : s.worker with
  | notForked => exact .inl rfl
  | exited status => exact .inr (.inr ⟨status, rfl⟩)
  | waitReq =>
    rw [hpc] at h
    simp only at h
    split_ifs at h with hpos
    exact .inr (.inl ⟨rfl, Nat.eq_zero_of_not_pos hpos⟩)
  | load i =>
    rw [hpc] at h
    simp only at h
    split_ifs at h
  | openReq | openWrk | openShm | reload i x | store i x y | postWrk | release =>
    rw [hpc] at h
    cases h

/-- The parent can move unless it waits for the worker's answer or its end, or has
exited. -/
theorem main_of_stuck (h : RequestWorker.main num s = none) :
    s.main = .waitWrk ∧ s.semWrk = 0 ∨ s.main = .wait ∧ (∀ status, s.worker ≠ .exited status) ∨
      ∃ status, s.main = .exited status := by
  unfold RequestWorker.main at h
  cases hpc : s.main with
  | exited status => exact .inr (.inr ⟨status, rfl⟩)
  | waitWrk =>
    rw [hpc] at h
    simp only at h
    split_ifs at h with hpos
    exact .inl ⟨rfl, Nat.eq_zero_of_not_pos hpos⟩
  | wait =>
    rw [hpc] at h
    refine .inr (.inl ⟨rfl, fun status hworker => ?_⟩)
    rw [hworker] at h
    cases h
  | generate i | print i =>
    rw [hpc] at h
    simp only at h
    split_ifs at h
  | create | mmap | semOpen | fork | openShm | openReq | openWrk | postReq | release | unlinkWrk
  | unlinkReq | unlinkShm =>
    rw [hpc] at h
    cases h

/-- **No deadlock**: when neither process can move, both have come to their end. -/
theorem Inv.exited_of_stuck (hs : Inv num s) (hnum : 0 < num) (h : (program num).Stuck s) :
    s.main = .exited 0 ∧ s.worker = .exited 0 := by
  have hworker := worker_of_stuck (h .worker)
  -- a worker that waits has not been posted to, and one that has exited has answered
  have hstate : ∀ pc, s.main = pc → (pc.progress num).forked = true →
      (pc.progress num).posted = 1 → s.worker = .exited 0 := by
    rintro pc rfl hforked hposted
    rcases hworker with hnot | ⟨hwait, hzero⟩ | ⟨status, hexited⟩
    · rw [hs.forked.mpr hnot] at hforked
      cases hforked
    · have hsem := hs.semReq
      rw [hwait, hzero, hposted] at hsem
      cases hsem
    · have hok := hs.worker_ok hexited
      cases status with
      | zero => exact hexited
      | succ status => exact hok.elim
  rcases main_of_stuck (h .main) with ⟨hpc, hzero⟩ | ⟨hpc, hrunning⟩ | ⟨status, hpc⟩
  · have hexited := hstate _ hpc rfl rfl
    have hsem := hs.semWrk
    rw [hpc, hexited, hzero] at hsem
    cases hsem
  · exact absurd (hstate _ hpc rfl rfl) (hrunning 0)
  · have hok := hs.main_ok hpc
    cases status with
    | zero => exact ⟨hpc, hstate _ hpc rfl rfl⟩
    | succ status => exact absurd hok hnum.ne'

/-- **The handoff**: the worker loads only what `request` has stored, `request` prints only
what the worker has squared, so what it prints are the squares in order; if the array is
not empty, the two processes come to their end; and `main` unlinks the names only after
the worker has opened everything. -/
theorem handoff (num : ℕ) (h : (program num).Reachable s) :
    (∀ i, s.worker.Loads num i → s.generated i = true) ∧
      (∀ i, s.main = .print i → i < num → s.squared i = true) ∧
      s.printed <+: (List.range num).map square ∧
      (s.main.Returned → s.printed = (List.range num).map square) ∧
      (0 < num → (program num).Stuck s → s.main = .exited 0 ∧ s.worker = .exited 0) ∧
      (s.main.Unlinks → s.worker.Opened) := by
  have hs := inv_of_reachable h
  refine ⟨fun i hi => hs.generated_of_loads hi, fun i hpc hi => ?_, ?_, fun hret => ?_,
    fun hnum hstuck => hs.exited_of_stuck hnum hstuck, fun hunlink => ?_⟩
  · rw [hs.squared i, hs.squared_eq (by rw [hpc]; exact Nat.one_pos)]
    exact decide_eq_true hi
  · have hrange := List.take_prefix (s.main.progress num).printed (List.range num)
    rw [List.take_range, Nat.min_eq_left (MainPc.printed_le hs.main)] at hrange
    rw [hs.printed]
    exact hrange.map square
  · rw [hs.printed, MainPc.printed_of_returned hret]
  · rw [hs.waited (MainPc.waited_of_unlinks hunlink)]
    trivial

theorem reachable_start : (program num).Reachable (start false false false fun _ => 0) :=
  .init ⟨false, false, false, _, rfl⟩

/-- An empty array: `main` fails at `mmap`, and neither side runs. -/
theorem empty_refused : ∃ s, (program 0).Reachable s ∧ (program 0).Stuck s ∧
    s.main = .exited 1 ∧ s.worker = .notForked := by
  have hrun : (program 0).run (start false false false fun _ => 0) [.main, .main]
      = some { start true false false (fun _ => 0) with main := .exited 1 } := rfl
  refine ⟨_, reachable_start.run hrun, ?_, rfl, rfl⟩
  intro t
  cases t <;> rfl

/-- A whole run on two elements. -/
theorem handoff_two : ∃ s, (program 2).Reachable s ∧ s.worker.Opened ∧ s.printed = [0, 1] := by
  have hrun : ∃ s, (program 2).Reachable s ∧ s.main = .exited 0 := by
    obtain ⟨s, hs⟩ : ∃ s, (program 2).run (start false false false fun _ => 0)
        (List.replicate 11 .main ++ List.replicate 13 .worker ++ List.replicate 9 .main) = some s ∧
        s.main = .exited 0 := ⟨_, rfl, rfl⟩
    exact ⟨s, reachable_start.run hs.1, hs.2⟩
  obtain ⟨s, hs, hpc⟩ := hrun
  obtain ⟨-, -, -, hprinted, -, hopened⟩ := handoff 2 hs
  refine ⟨s, hs, hopened (by rw [hpc]; trivial), ?_⟩
  rw [hprinted (by rw [hpc]; trivial)]
  rfl

end Inv

end RequestWorker
