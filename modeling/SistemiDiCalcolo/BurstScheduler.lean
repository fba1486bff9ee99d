/-
The scheduler of Lab02 (`scheduler.c`).

For every line of its input `main` creates `THREAD_BURST` detached clients, which use a
resource under a counting semaphore and then decrement `ACTIVE_THREADS`.  At the end of
the input `main` waits until `ACTIVE_THREADS` is 0 and destroys the semaphore.  The
counter starts at `THREAD_BURST`, whatever the number of lines, and `sem_exit`, which is
to guard it, at `THREAD_BURST` too, so it keeps nobody out.

* `program` — the program on a given input, one step for each semaphore operation and for
  each load and store of `ACTIVE_THREADS`;
* `Good` — what a shutdown is to look like;
* `good_of_separate` — it is so for one burst, as long as no two decrements overlap.
-/
import SistemiDiCalcolo.Machine
import SistemiDiCalcolo.Tally
import SistemiDiCalcolo.Spawn
import SistemiDiCalcolo.Descriptor

open Function (update)

namespace BurstScheduler

def NUM_RESOURCES : ℕ := 3

def NUM_TASKS : ℕ := 3

def THREAD_BURST : ℕ := 5

/-- Program points of `client`, with the counters of its two loops; `working` is between
`sem_wait` and `sem_post`.  `storeActive` carries the value loaded. -/
inductive ClientPc
  | absent
  | first (i : ℕ)
  | firstWorking (i : ℕ)
  | second (i : ℕ)
  | secondWorking (i : ℕ)
  | waitExit
  | loadActive
  | storeActive (x : CInt)
  | postExit
  | done
  deriving DecidableEq, Repr

/-- Program points of `main`; `spawn` carries the counter of the burst. -/
inductive MainPc
  | getchar
  | spawn (i : ℕ)
  | waitExit
  | spinning
  | destroy
  | postExit
  | destroyExit
  | exited
  deriving DecidableEq, Repr

/-- The semaphores, `none` once they are destroyed, and `ACTIVE_THREADS`. -/
structure Shared where
  semaphore : Option ℕ
  semExit : Option ℕ
  activeThreads : CInt
  deriving DecidableEq, Repr

/-- The shared variables, what is left of the input, the number of the next thread and the
program points. -/
structure State (n : ℕ) where
  shared : Shared
  input : List Char
  threadId : ℕ
  main : MainPc
  client : Fin n → ClientPc

inductive Agent (n : ℕ)
  | main
  | client (k : Fin n)
  deriving DecidableEq

/-- `sem_wait`: blocked at 0, and without a meaning on a semaphore that is destroyed. -/
def semWait : Option ℕ → Option (Option ℕ)
  | some (v + 1) => some (some v)
  | some 0 | none => none

/-- `sem_post`. -/
def semPost : Option ℕ → Option (Option ℕ)
  | some v => some (some (v + 1))
  | none => none

/-- The next step of `client`. -/
def client (g : Shared) : ClientPc → Option (Shared × ClientPc)
  | .first i =>
    if i < NUM_TASKS then
      (semWait g.semaphore).map fun sem => ({ g with semaphore := sem }, .firstWorking i)
    else some (g, .second 0)
  | .firstWorking i =>
    (semPost g.semaphore).map fun sem => ({ g with semaphore := sem }, .first (i + 2))
  | .second i =>
    if i < NUM_TASKS then
      (semWait g.semaphore).map fun sem => ({ g with semaphore := sem }, .secondWorking i)
    else some (g, .waitExit)
  | .secondWorking i =>
    (semPost g.semaphore).map fun sem => ({ g with semaphore := sem }, .second (i + 1))
  | .waitExit => (semWait g.semExit).map fun sem => ({ g with semExit := sem }, .loadActive)
  | .loadActive => some (g, .storeActive g.activeThreads)
  | .storeActive x => some ({ g with activeThreads := x - 1 }, .postExit)
  | .postExit => (semPost g.semExit).map fun sem => ({ g with semExit := sem }, .done)
  | .absent | .done => none

section Program

variable {n : ℕ}

/-- The next step of `main`. -/
def main (s : State n) : Option (State n) :=
  match s.main with
  | .getchar =>
    match s.input with
    | [] => some { s with main := .waitExit }
    | c :: input => some { s with input := input, main := if c = '\n' then .spawn 0 else .getchar }
  | .spawn i =>
    if i < THREAD_BURST then
      if h : s.threadId < n then
        some { s with
          client := update s.client ⟨s.threadId, h⟩ (.first 0)
          threadId := s.threadId + 1
          main := .spawn (i + 1) }
      else none
    else some { s with main := .getchar }
  | .waitExit =>
    (semWait s.shared.semExit).map fun sem =>
      { s with shared := { s.shared with semExit := sem }, main := .spinning }
  | .spinning => if s.shared.activeThreads = 0 then some { s with main := .destroy } else some s
  | .destroy => some { s with shared := { s.shared with semaphore := none }, main := .postExit }
  | .postExit =>
    (semPost s.shared.semExit).map fun sem =>
      { s with shared := { s.shared with semExit := sem }, main := .destroyExit }
  | .destroyExit => some { s with shared := { s.shared with semExit := none }, main := .exited }
  | .exited => none

/-- The next step of an agent. -/
def step (s : State n) : Agent n → Option (State n)
  | .main => main s
  | .client k =>
    (client s.shared (s.client k)).map fun (g, pc) =>
      { s with shared := g, client := update s.client k pc }

/-- The semaphores and the counter as `main` sets them up. -/
def Shared.start : Shared where
  semaphore := some NUM_RESOURCES
  semExit := some THREAD_BURST
  activeThreads := BitVec.ofNat 32 THREAD_BURST

/-- How many bursts an input asks for. -/
def bursts (input : List Char) : ℕ := input.count '\n'

/-- What `main` sets up before it reads the first character. -/
def start (input : List Char) : State n where
  shared := .start
  input := input
  threadId := 0
  main := .getchar
  client _ := .absent

/-- The program on an input that ends with the end of file. -/
def program (input : List Char) :
    Machine (State (THREAD_BURST * bursts input)) (Agent (THREAD_BURST * bursts input)) where
  init s := s = start input
  step := step

end Program

/-! ### What a shutdown is to look like -/

section Good

variable {n : ℕ}

/-- The client will not use the resource semaphore again. -/
def ClientPc.Finished : ClientPc → Prop
  | .waitExit | .loadActive | .storeActive _ | .postExit | .done => True
  | .absent | .first _ | .firstWorking _ | .second _ | .secondWorking _ => False

/-- 1 once the client has decremented the counter. -/
def ClientPc.decremented : ClientPc → ℕ
  | .postExit | .done => 1
  | _ => 0

/-- 1 between the load and the store of the counter. -/
def ClientPc.storing : ClientPc → ℕ
  | .storeActive _ => 1
  | _ => 0

/-- `main` has found the end of the input. -/
def MainPc.InputOver : MainPc → Prop
  | .getchar | .spawn _ => False
  | _ => True

/-- `main` has left its wait on `ACTIVE_THREADS`. -/
def MainPc.Left : MainPc → Prop
  | .destroy | .postExit | .destroyExit | .exited => True
  | _ => False

/-- `main` leaves its wait only after all clients have finished with the resource; and once
the input is over and all clients have decremented the counter, it is 0. -/
def Good (s : State n) : Prop :=
  (s.main.Left → ∀ k, s.client k ≠ .absent → (s.client k).Finished) ∧
    (s.main.InputOver → (∀ k, (s.client k).decremented = 1) → s.shared.activeThreads = 0)

/-- No client loads the counter while another one is between its load and its store. -/
def Separate (s : State n) : Agent n → Prop
  | .main => True
  | .client k => s.client k = .loadActive → ∀ j, j ≠ k → (s.client j).storing = 0

/-! ### Separate decrements -/

/-- What a step of a client does to the counter: nothing, but for a load, or its store. -/
inductive CounterStep (active : CInt) : ClientPc → ClientPc → CInt → Prop
  | other {pc pc' : ClientPc} : pc'.decremented = pc.decremented → pc.storing = 0 →
      pc'.storing = 0 → CounterStep active pc pc' active
  | load : CounterStep active .loadActive (.storeActive active) active
  | store (x : CInt) : CounterStep active (.storeActive x) .postExit (x - 1)

theorem client_step {g g' : Shared} {pc pc' : ClientPc} (h : client g pc = some (g', pc')) :
    CounterStep g.activeThreads pc pc' g'.activeThreads ∧ pc ≠ .absent ∧ pc' ≠ .absent := by
  cases pc with
  | absent | done => cases h
  | first i | second i =>
    rw [client] at h
    split_ifs at h
    · obtain ⟨sem, -, heq⟩ := Option.map_eq_some_iff.mp h
      cases heq
      exact ⟨.other rfl rfl rfl, nofun, nofun⟩
    · cases h
      exact ⟨.other rfl rfl rfl, nofun, nofun⟩
  | firstWorking i | secondWorking i | waitExit | postExit =>
    obtain ⟨sem, -, heq⟩ := Option.map_eq_some_iff.mp h
    cases heq
    exact ⟨.other rfl rfl rfl, nofun, nofun⟩
  | loadActive =>
    cases h
    exact ⟨.load, nofun, nofun⟩
  | storeActive x =>
    cases h
    exact ⟨.store x, nofun, nofun⟩

/-- The clients that the burst under way is still to create. -/
def MainPc.toSpawn : MainPc → ℕ
  | .spawn i => THREAD_BURST - i
  | _ => 0

/-- Which clients exist. -/
structure Created (s : State n) : Prop where
  spawned : Spawned .absent s.threadId s.client
  room : s.threadId + THREAD_BURST * bursts s.input + s.main.toSpawn = n
  inputOver : s.main.InputOver → s.input = []

theorem created_start {input : List Char} :
    Created (start input : State (THREAD_BURST * bursts input)) where
  spawned := spawned_zero _
  room := by
    show 0 + THREAD_BURST * bursts input + 0 = THREAD_BURST * bursts input
    omega
  inputOver h := h.elim

/-- Once the input is over, all clients exist. -/
theorem Created.threadId_eq {s : State n} (hs : Created s) (h : s.main.InputOver) :
    s.threadId = n := by
  have hroom := hs.room
  rw [hs.inputOver h] at hroom
  have hspawn : s.main.toSpawn = 0 := by
    cases hpc : s.main with
    | getchar | spawn i =>
      rw [hpc] at h
      exact h.elim
    | waitExit | spinning | destroy | postExit | destroyExit | exited => rfl
  rw [hspawn] at hroom
  exact hroom

theorem Created.of_main {s : State n} (hs : Created s) (h : s.main.InputOver) {g : Shared}
    {pc : MainPc} (hspawn : pc.toSpawn = 0) :
    Created { s with shared := g, main := pc } := by
  refine ⟨hs.spawned, ?_, fun _ => hs.inputOver h⟩
  show s.threadId + THREAD_BURST * bursts s.input + pc.toSpawn = n
  rw [hspawn, hs.inputOver h, hs.threadId_eq h]
  rfl

/-- What a step of `main` can do. -/
inductive MainStep (s : State n) : State n → Prop
  | inputOver : s.main = .getchar → s.input = [] →
      MainStep s { s with input := [], main := .waitExit }
  | skip (c : Char) (input : List Char) : s.main = .getchar → s.input = c :: input → c ≠ '\n' →
      MainStep s { s with input := input, main := .getchar }
  | burst (input : List Char) : s.main = .getchar → s.input = '\n' :: input →
      MainStep s { s with input := input, main := .spawn 0 }
  | create (i : ℕ) (h : s.threadId < n) : s.main = .spawn i → i < THREAD_BURST →
      MainStep s { s with
        client := update s.client ⟨s.threadId, h⟩ (.first 0)
        threadId := s.threadId + 1
        main := .spawn (i + 1) }
  | burstOver (i : ℕ) : s.main = .spawn i → ¬ i < THREAD_BURST →
      MainStep s { s with main := .getchar }
  | enter (sem : Option ℕ) : s.main = .waitExit → semWait s.shared.semExit = some sem →
      MainStep s { s with shared := { s.shared with semExit := sem }, main := .spinning }
  | spin : s.main = .spinning → s.shared.activeThreads ≠ 0 → MainStep s s
  | leave : s.main = .spinning → s.shared.activeThreads = 0 →
      MainStep s { s with main := .destroy }
  | cleanUp (sem exit : Option ℕ) (pc : MainPc) : s.main.Left → pc.Left →
      MainStep s { s with
        shared := { s.shared with semaphore := sem, semExit := exit }
        main := pc }

theorem main_step {s s' : State n} (h : main s = some s') : MainStep s s' := by
  unfold main at h
  cases hpc : s.main with
  | getchar =>
    rw [hpc] at h
    cases hinput : s.input with
    | nil =>
      rw [hinput] at h
      cases h
      exact .inputOver hpc hinput
    | cons c input =>
      rw [hinput] at h
      cases h
      by_cases hc : c = '\n'
      · subst hc
        exact .burst input hpc hinput
      · rw [if_neg hc]
        exact .skip c input hpc hinput hc
  | spawn i =>
    rw [hpc] at h
    simp only at h
    split_ifs at h with hi hroom
    · cases h
      exact .create i hroom hpc hi
    · cases h
      exact .burstOver i hpc hi
  | waitExit =>
    rw [hpc] at h
    obtain ⟨sem, hsem, heq⟩ := Option.map_eq_some_iff.mp h
    cases heq
    exact .enter sem hpc hsem
  | spinning =>
    rw [hpc] at h
    simp only at h
    split_ifs at h with hactive
    · cases h
      exact .leave hpc hactive
    · cases h
      exact .spin hpc hactive
  | destroy =>
    rw [hpc] at h
    cases h
    exact .cleanUp none _ .postExit (by rw [hpc]; trivial) trivial
  | postExit =>
    rw [hpc] at h
    obtain ⟨sem, -, heq⟩ := Option.map_eq_some_iff.mp h
    cases heq
    exact .cleanUp _ sem .destroyExit (by rw [hpc]; trivial) trivial
  | destroyExit =>
    rw [hpc] at h
    cases h
    exact .cleanUp _ none .exited (by rw [hpc]; trivial) trivial
  | exited =>
    rw [hpc] at h
    cases h

theorem MainPc.Left.inputOver {pc : MainPc} (h : pc.Left) : pc.InputOver := by
  cases pc with
  | destroy | postExit | destroyExit | exited => trivial
  | getchar | spawn i | waitExit | spinning => exact h.elim

theorem MainPc.Left.toSpawn {pc : MainPc} (h : pc.Left) : pc.toSpawn = 0 := by
  cases pc with
  | destroy | postExit | destroyExit | exited => rfl
  | getchar | spawn i | waitExit | spinning => exact h.elim

theorem Created.main {s s' : State n} (hs : Created s) (h : MainStep s s') : Created s' := by
  have hroom := hs.room
  cases h with
  | inputOver hpc hinput =>
    rw [hpc, hinput] at hroom
    exact ⟨hs.spawned, hroom, fun _ => rfl⟩
  | skip c input hpc hinput hc =>
    rw [hpc, hinput, bursts, List.count_cons_of_ne hc] at hroom
    exact ⟨hs.spawned, hroom, fun h => h.elim⟩
  | burst input hpc hinput =>
    rw [hpc, hinput, bursts, List.count_cons_self] at hroom
    refine ⟨hs.spawned, ?_, fun h => h.elim⟩
    show s.threadId + THREAD_BURST * input.count '\n' + (THREAD_BURST - 0) = n
    rw [Nat.mul_succ] at hroom
    exact hroom
  | create i hlt hpc hi =>
    rw [hpc] at hroom
    refine ⟨hs.spawned.create hlt nofun, ?_, fun h => h.elim⟩
    show s.threadId + 1 + THREAD_BURST * bursts s.input + (THREAD_BURST - (i + 1)) = n
    have htoSpawn : (MainPc.spawn i).toSpawn = THREAD_BURST - i := rfl
    omega
  | burstOver i hpc hi =>
    rw [hpc] at hroom
    refine ⟨hs.spawned, ?_, fun h => h.elim⟩
    show s.threadId + THREAD_BURST * bursts s.input + 0 = n
    have htoSpawn : (MainPc.spawn i).toSpawn = THREAD_BURST - i := rfl
    omega
  | enter sem hpc _ => exact hs.of_main (by rw [hpc]; trivial) rfl
  | spin _ _ => exact hs
  | leave hpc _ => exact hs.of_main (by rw [hpc]; trivial) rfl
  | cleanUp sem exit pc hleft hpc => exact hs.of_main hleft.inputOver hpc.toSpawn

theorem Created.step {s s' : State n} {t : Agent n} (hs : Created s) (h : step s t = some s') :
    Created s' := by
  cases t with
  | main => exact hs.main (main_step h)
  | client k =>
    obtain ⟨⟨g, pc⟩, hstep, rfl⟩ := Option.map_eq_some_iff.mp h
    obtain ⟨-, hne, hne'⟩ := client_step hstep
    exact ⟨hs.spawned.move hne hne', hs.room, hs.inputOver⟩

/-- The counter when no two decrements overlap: what a client has loaded is still there when
it stores. -/
structure Counted (s : State n) : Prop where
  active : s.shared.activeThreads + BitVec.ofNat 32 (tally ClientPc.decremented s.client)
    = BitVec.ofNat 32 THREAD_BURST
  stored : ∀ k x, s.client k = .storeActive x → x = s.shared.activeThreads
  sole : tally ClientPc.storing s.client ≤ 1

theorem counted_start {input : List Char} : Counted (start input : State n) where
  active := by
    have hzero : tally ClientPc.decremented (fun _ : Fin n => ClientPc.absent) = 0 :=
      tally_eq_zero.mpr fun _ => rfl
    show BitVec.ofNat 32 THREAD_BURST
      + BitVec.ofNat 32 (tally ClientPc.decremented fun _ : Fin n => ClientPc.absent) = _
    rw [hzero]
    rfl
  stored _ _ h := by cases h
  sole := by
    have hzero : tally ClientPc.storing (fun _ : Fin n => ClientPc.absent) = 0 :=
      tally_eq_zero.mpr fun _ => rfl
    exact hzero.le.trans (Nat.zero_le 1)

/-- A separate step of a client. -/
theorem Counted.client {s : State n} (hs : Counted s) {k : Fin n} {g : Shared} {pc : ClientPc}
    (hsep : Separate s (.client k))
    (h : CounterStep s.shared.activeThreads (s.client k) pc g.activeThreads) :
    Counted { s with shared := g, client := update s.client k pc } := by
  obtain ⟨hactive, hstored, hsole⟩ := hs
  have hdec := tally_update ClientPc.decremented s.client k pc
  have hsto := tally_update ClientPc.storing s.client k pc
  generalize hk : s.client k = pc₀ at h hdec hsto
  generalize ha : g.activeThreads = a at h
  cases h with
  | other hsame hnot hnot' =>
    rw [hsame] at hdec
    rw [hnot, hnot'] at hsto
    refine ⟨?_, ?_, ?_⟩
    · rw [ha, Nat.add_right_cancel hdec]
      exact hactive
    · refine (Function.forall_update_iff s.client fun _ pc =>
        ∀ x, pc = .storeActive x → x = g.activeThreads).mpr ⟨?_, fun l _ => ?_⟩
      · rintro x rfl
        cases hnot'
      · rw [ha]
        exact hstored l
    · exact (Nat.add_right_cancel hsto).le.trans hsole
  | load =>
    -- nobody else is between its load and its store
    have hzero : tally ClientPc.storing s.client = 0 := by
      refine tally_eq_zero.mpr fun j => ?_
      by_cases hj : j = k
      · rw [hj, hk]
        rfl
      · exact hsep hk j hj
    refine ⟨?_, ?_, ?_⟩
    · rw [ha, Nat.add_right_cancel (hdec : _ + 0 = _ + 0)]
      exact hactive
    · refine (Function.forall_update_iff s.client fun _ pc =>
        ∀ x, pc = .storeActive x → x = g.activeThreads).mpr ⟨?_, fun l _ => ?_⟩
      · intro x hx
        cases hx
        exact ha.symm
      · rw [ha]
        exact hstored l
    · have hone : tally ClientPc.storing (update s.client k (.storeActive s.shared.activeThreads))
          + 0 = tally ClientPc.storing s.client + 1 := hsto
      show tally ClientPc.storing (update s.client k (.storeActive s.shared.activeThreads)) ≤ 1
      omega
  | store x =>
    obtain rfl := hstored k x hk
    have hone : tally ClientPc.decremented (update s.client k .postExit)
        = tally ClientPc.decremented s.client + 1 := hdec
    refine ⟨?_, ?_, ?_⟩
    · show g.activeThreads
        + BitVec.ofNat 32 (tally ClientPc.decremented (update s.client k .postExit)) = _
      rw [ha, hone, BitVec.ofNat_add, add_comm (BitVec.ofNat 32 _), ← add_assoc]
      rw [show s.shared.activeThreads - 1 + 1#32 = s.shared.activeThreads from sub_add_cancel _ _,
        hactive]
    · refine (Function.forall_update_iff s.client fun _ pc =>
        ∀ x, pc = .storeActive x → x = g.activeThreads).mpr ⟨nofun, fun l hl x hx => ?_⟩
      -- `k` was the one between its load and its store
      have hk' : (s.client k).storing = 1 := by rw [hk]; rfl
      have hl' : (s.client l).storing = 1 := by rw [hx]; rfl
      exact absurd (tally_sole hsole hl' hk') hl
    · have hzero : tally ClientPc.storing (update s.client k .postExit) + 1
          = tally ClientPc.storing s.client + 0 := hsto
      show tally ClientPc.storing (update s.client k .postExit) ≤ 1
      omega

/-- A step of `main` leaves the counter alone, and creates clients that have not begun. -/
theorem Counted.main {s s' : State n} (hs : Counted s) (hcreated : Created s)
    (h : MainStep s s') : Counted s' := by
  cases h with
  | create i hlt hpc hi =>
    have habsent := hcreated.spawned.eq_absent hlt
    have hdec := tally_update ClientPc.decremented s.client ⟨s.threadId, hlt⟩ (.first 0)
    have hsto := tally_update ClientPc.storing s.client ⟨s.threadId, hlt⟩ (.first 0)
    rw [habsent] at hdec hsto
    refine ⟨?_, ?_, ?_⟩
    · rw [Nat.add_right_cancel hdec]
      exact hs.active
    · exact (Function.forall_update_iff s.client fun _ pc =>
        ∀ x, pc = .storeActive x → x = s.shared.activeThreads).mpr ⟨nofun, fun l _ => hs.stored l⟩
    · exact (Nat.add_right_cancel hsto).le.trans hs.sole
  | inputOver _ _ | skip _ _ _ _ _ | burst _ _ _ | burstOver _ _ _ | enter _ _ _ | leave _ _
  | cleanUp _ _ _ _ _ => exact ⟨hs.active, hs.stored, hs.sole⟩
  | spin _ _ => exact hs

/-- A client that has decremented the counter will not touch it again. -/
theorem CounterStep.decremented {active active' : CInt} {pc pc' : ClientPc}
    (h : CounterStep active pc pc' active') (hpc : pc.decremented = 1) : pc'.decremented = 1 := by
  cases h with
  | other hsame _ _ => rw [hsame, hpc]
  | load | store x => cases hpc

/-- With the counter at 0, as many clients have decremented it as make a burst. -/
theorem Counted.all_decremented {s : State n} (hs : Counted s) (hn : n = THREAD_BURST)
    (h : s.shared.activeThreads = 0) (k : Fin n) : (s.client k).decremented = 1 := by
  have hle : ∀ pc, ClientPc.decremented pc ≤ 1 := by
    intro pc
    cases pc <;> first | exact le_rfl | exact Nat.zero_le 1
  have htally : tally ClientPc.decremented s.client ≤ n := by
    have hcard := tally_le_card_mul (g := s.client) fun i => hle (s.client i)
    rwa [Fintype.card_fin, Nat.mul_one] at hcard
  have hactive := hs.active
  rw [h, zero_add] at hactive
  have hcount := (ofNat_inj_of_lt ((htally.trans_eq hn).trans_lt (by decide))
    (by decide)).mp hactive
  exact eq_one_of_card_le_tally hle (by rw [Fintype.card_fin, hcount, hn]) k

/-- Once all clients of a burst have decremented the counter, it is 0. -/
theorem Counted.active_eq_zero {s : State n} (hs : Counted s) (hn : n = THREAD_BURST)
    (h : ∀ k, (s.client k).decremented = 1) : s.shared.activeThreads = 0 := by
  have htally : tally ClientPc.decremented s.client = THREAD_BURST := by
    have hsum : tally ClientPc.decremented s.client = ∑ _k : Fin n, 1 :=
      Finset.sum_congr rfl fun k _ => h k
    rw [hsum, Finset.sum_const, Finset.card_univ, Fintype.card_fin, smul_eq_mul, Nat.mul_one, hn]
  have hactive := hs.active
  rw [htally] at hactive
  exact add_eq_right.mp hactive

theorem finished_of_decremented {pc : ClientPc} (h : pc.decremented = 1) : pc.Finished := by
  cases pc with
  | postExit | done => trivial
  | absent | first i | firstWorking i | second i | secondWorking i | waitExit | loadActive
  | storeActive x => cases h

/-- What holds for one burst as long as the decrements do not overlap. -/
structure Inv (s : State n) : Prop where
  created : Created s
  counted : Counted s
  left : s.main.Left → ∀ k, (s.client k).decremented = 1

theorem Inv.step {s s' : State n} {t : Agent n} (hs : Inv s) (hn : n = THREAD_BURST)
    (hsep : Separate s t) (h : step s t = some s') : Inv s' := by
  refine ⟨hs.created.step h, ?_, ?_⟩
  · cases t with
    | main => exact hs.counted.main hs.created (main_step h)
    | client k =>
      obtain ⟨⟨g, pc⟩, hstep, rfl⟩ := Option.map_eq_some_iff.mp h
      exact hs.counted.client hsep (client_step hstep).1
  · cases t with
    | main =>
      cases main_step h with
      | leave _ hactive => exact fun _ => hs.counted.all_decremented hn hactive
      | cleanUp sem exit pc hleft _ => exact fun _ => hs.left hleft
      | spin _ _ => exact hs.left
      | inputOver _ _ | skip _ _ _ _ _ | burst _ _ _ | create _ _ _ _ | burstOver _ _ _
      | enter _ _ _ => exact fun hleft => hleft.elim
    | client k =>
      obtain ⟨⟨g, pc⟩, hstep, rfl⟩ := Option.map_eq_some_iff.mp h
      intro hleft
      exact (Function.forall_update_iff s.client fun _ pc => pc.decremented = 1).mpr
        ⟨(client_step hstep).1.decremented (hs.left hleft k), fun l _ => hs.left hleft l⟩

/-- **One burst**: as long as no two decrements overlap, the shutdown is as it should be. -/
theorem good_of_separate {input : List Char} (hb : bursts input = 1)
    {s : State (THREAD_BURST * bursts input)} (h : (program input).ReachableVia Separate s) :
    Good s := by
  have hn : THREAD_BURST * bursts input = THREAD_BURST := by rw [hb, Nat.mul_one]
  have hs : Inv s := by
    refine h.invariant ?_ fun s t s' hs hsep hstep => hs.step hn hsep hstep
    rintro s rfl
    exact ⟨created_start, counted_start, fun hleft => hleft.elim⟩
  exact ⟨fun hleft k _ => finished_of_decremented (hs.left hleft k),
    fun _ hall => hs.counted.active_eq_zero hn hall⟩

end Good

end BurstScheduler
