/-
The scheduler with a named semaphore of Lab03 (`es2/server.c`, `es2/client.c`).

A server unlinks the name, creates a semaphore under it and prints how many resources are
in use; CTRL+C makes it unlink the name again.  The threads of the clients open the name,
each on its own, and hold a resource between `sem_wait` and `sem_post`.  Unlinking a name
does not touch the semaphore: whoever has opened it goes on with it, and the next server
creates another one under the same name.

* `program` — servers and clients, any number of them, started and stopped in any order;
* `MainStep`, `ClientStep` — what a step of `main` of a client, and of its threads, can do;
* `Inv` — the account of each semaphore: its value and its holders make `NUM_RESOURCES`;
* `limit_per_semaphore` — the limit, and what the servers print, semaphore by semaphore;
* `restart_exceeds` — over a restart of the server the limit does not hold in all.
-/
import SistemiDiCalcolo.Machine
import Mathlib.Data.Int.Notation
import Mathlib.Data.List.Basic
import Mathlib.Logic.Function.Basic
import Mathlib.Tactic.Common

open Function (update)

namespace NamedScheduler

def NUM_RESOURCES : ℕ := 3

def THREAD_BURST : ℕ := 5

/-- Program points of `main` of the server and of its `cleanup`: the call that is next.
`print` carries the value that `sem_getvalue` has returned. -/
inductive ServerPc
  | start
  | unlink
  | create
  | setQuitHandler
  | getvalue
  | print (currentValue : ℕ)
  | close
  | cleanupUnlink
  | exited
  deriving DecidableEq, Repr

/-- Program points of `client`: the call that is next, on the semaphore of a server.
`working` is between `sem_wait` and `sem_post`. -/
inductive ClientPc
  | opening
  | wait (k : ℕ)
  | working (k : ℕ)
  | close (k : ℕ)
  | done
  deriving DecidableEq, Repr

/-- Program points of `main` of a client; `spawn` carries the counter of the burst. -/
inductive MainPc
  | getchar
  | spawn (i : ℕ)
  | exited
  deriving DecidableEq, Repr

/-- A client: whether it has not yet called `exit`, what is left of its input, and where
its main thread is. -/
structure Process where
  alive : Bool
  input : List Char
  main : MainPc
  deriving DecidableEq, Repr

/-- A thread of a client. -/
structure Thread (ι : Type*) where
  process : ι
  pc : ClientPc
  deriving DecidableEq

/-- Servers are numbered, and a semaphore goes by the number of the server that created
it.  `name` is the semaphore that the name stands for; `value k` is `none` as long as the
server `k` has created none. -/
structure State (ι : Type*) where
  name : Option ℕ
  value : ℕ → Option ℕ
  server : ℕ → ServerPc
  process : ι → Process
  threads : List (Thread ι)

inductive Agent (ι : Type*)
  | server (k : ℕ)
  | interrupt (k : ℕ)
  | main (p : ι)
  | client (i : ℕ)

section Program

variable {ι : Type*} [DecidableEq ι]

/-- The next step of a server. -/
def server (s : State ι) (k : ℕ) : Option (State ι) :=
  match s.server k with
  | .start => some { s with server := update s.server k .unlink }
  -- the result of this `sem_unlink` is not looked at
  | .unlink => some { s with name := none, server := update s.server k .create }
  | .create =>
    match s.name with
    | some _ => some { s with server := update s.server k .exited }
    | none =>
      some { s with
        name := some k
        value := update s.value k (some NUM_RESOURCES)
        server := update s.server k .setQuitHandler }
  | .setQuitHandler => some { s with server := update s.server k .getvalue }
  | .getvalue => (s.value k).map fun v => { s with server := update s.server k (.print v) }
  | .print _ => some { s with server := update s.server k .getvalue }
  | .close => some { s with server := update s.server k .cleanupUnlink }
  -- if the name is gone, the server exits with an error
  | .cleanupUnlink => some { s with name := none, server := update s.server k .exited }
  | .exited => none

/-- CTRL+C at a server: `cleanup`, once the handler is set.  While `cleanup` runs, the
signal is blocked. -/
def interrupt (s : State ι) (k : ℕ) : Option (State ι) :=
  match s.server k with
  | .unlink | .create | .setQuitHandler => some { s with server := update s.server k .exited }
  | .getvalue | .print _ => some { s with server := update s.server k .close }
  | .start | .close | .cleanupUnlink | .exited => none

/-- The next step of the main thread of a client. -/
def main (s : State ι) (p : ι) : Option (State ι) :=
  if (s.process p).alive then
    match (s.process p).main with
    | .getchar =>
      match (s.process p).input with
      | [] => some { s with process := update s.process p { s.process p with main := .exited } }
      | c :: input =>
        some { s with
          process := update s.process p { s.process p with
            input := input
            main := if c = '\n' then .spawn 0 else .getchar } }
    | .spawn i =>
      if i < THREAD_BURST then
        some { s with
          process := update s.process p { s.process p with main := .spawn (i + 1) }
          threads := s.threads ++ [⟨p, .opening⟩] }
      else some { s with process := update s.process p { s.process p with main := .getchar } }
    | .exited => none
  else none

/-- The next step of a thread of a client. -/
def client (s : State ι) (i : ℕ) : Option (State ι) :=
  s.threads[i]?.bind fun t =>
    if (s.process t.process).alive then
      match t.pc with
      | .opening =>
        match s.name with
        | some k => some { s with threads := s.threads.set i { t with pc := .wait k } }
        -- `handle_error_en` exits, with all threads of the process
        | none =>
          some { s with
            process := update s.process t.process { s.process t.process with alive := false } }
      | .wait k =>
        match s.value k with
        | some (v + 1) =>
          some { s with
            value := update s.value k (some v)
            threads := s.threads.set i { t with pc := .working k } }
        | some 0 | none => none
      | .working k =>
        (s.value k).map fun v =>
          { s with
            value := update s.value k (some (v + 1))
            threads := s.threads.set i { t with pc := .close k } }
      | .close _ => some { s with threads := s.threads.set i { t with pc := .done } }
      | .done => none
    else none

/-- The next step of an agent. -/
def step (s : State ι) : Agent ι → Option (State ι)
  | .server k => server s k
  | .interrupt k => interrupt s k
  | .main p => main s p
  | .client i => client s i

/-- No server has been started, and no client has read its input. -/
def start (inputs : ι → List Char) : State ι where
  name := none
  value _ := none
  server _ := .start
  process p := ⟨true, inputs p, .getchar⟩
  threads := []

/-- Servers and clients, on the inputs of the clients. -/
def program (inputs : ι → List Char) : Machine (State ι) (Agent ι) where
  init s := s = start inputs
  step := step

end Program

/-! ### Holders -/

section Holders

variable {ι : Type*}

/-- What a server prints as the number of resources in use. -/
def inUse (currentValue : ℕ) : ℤ := (NUM_RESOURCES : ℤ) - currentValue

/-- Where a thread is between its `sem_wait` and its `sem_post`, and on which semaphore. -/
def ClientPc.holds (k : ℕ) : ClientPc → Bool
  | .working l => l == k
  | .opening | .wait _ | .close _ | .done => false

/-- The threads that hold a resource, through any semaphore. -/
def holding (s : State ι) : ℕ :=
  s.threads.countP fun t =>
    (s.process t.process).alive && (match t.pc with | .working _ => true | _ => false)

/-- The threads that hold a resource through the semaphore of the server `k`. -/
def held (s : State ι) (k : ℕ) : ℕ :=
  s.threads.countP fun t => t.pc.holds k && (s.process t.process).alive

/-- The threads that held one when their process exited. -/
def lost (s : State ι) (k : ℕ) : ℕ :=
  s.threads.countP fun t => t.pc.holds k && !(s.process t.process).alive

/-- Both together. -/
def taken (s : State ι) (k : ℕ) : ℕ := s.threads.countP fun t => t.pc.holds k

theorem held_add_lost (s : State ι) (k : ℕ) : held s k + lost s k = taken s k := by
  unfold held lost taken
  induction s.threads with
  | nil => rfl
  | cons t threads ih =>
    rw [List.countP_cons, List.countP_cons, List.countP_cons, ← ih]
    cases t.pc.holds k <;> cases (s.process t.process).alive <;> simp <;> omega

end Holders

/-! ### The steps -/

section Steps

variable {ι : Type*}

/-- Whether the server has created its semaphore; `none` where it may have or not. -/
def ServerPc.created : ServerPc → Option Bool
  | .start | .unlink | .create => some false
  | .setQuitHandler | .getvalue | .print _ | .close | .cleanupUnlink => some true
  | .exited => none

/-- The semaphore that a thread has opened. -/
def ClientPc.semaphore : ClientPc → Option ℕ
  | .wait k | .working k | .close k => some k
  | .opening | .done => none

/-- The program point says no more of the semaphore than the one before. -/
def ServerPc.Follows (pc pc' : ServerPc) : Prop := pc'.created = none ∨ pc'.created = pc.created

/-- What a step can do. -/
inductive Effect (s : State ι) : State ι → Prop
  | move (k : ℕ) (name : Option ℕ) (pc : ServerPc) : (s.server k).Follows pc →
      name = s.name ∨ name = none → Effect s { s with name := name, server := update s.server k pc }
  | create (k : ℕ) : s.server k = .create → s.name = none →
      Effect s { s with
        name := some k
        value := update s.value k (some NUM_RESOURCES)
        server := update s.server k .setQuitHandler }
  | process (process : ι → Process) : Effect s { s with process := process }
  | spawn (process : ι → Process) (p : ι) :
      Effect s { s with process := process, threads := s.threads ++ [⟨p, .opening⟩] }
  | opened (i : ℕ) (t : Thread ι) (k : ℕ) : s.threads[i]? = some t → t.pc = .opening →
      s.name = some k → Effect s { s with threads := s.threads.set i { t with pc := .wait k } }
  | acquire (i : ℕ) (t : Thread ι) (k v : ℕ) : s.threads[i]? = some t → t.pc = .wait k →
      s.value k = some (v + 1) →
      Effect s { s with
        value := update s.value k (some v)
        threads := s.threads.set i { t with pc := .working k } }
  | release (i : ℕ) (t : Thread ι) (k v : ℕ) : s.threads[i]? = some t → t.pc = .working k →
      s.value k = some v →
      Effect s { s with
        value := update s.value k (some (v + 1))
        threads := s.threads.set i { t with pc := .close k } }
  | closed (i : ℕ) (t : Thread ι) (k : ℕ) : s.threads[i]? = some t → t.pc = .close k →
      Effect s { s with threads := s.threads.set i { t with pc := .done } }

theorem server_effect {s s' : State ι} {k : ℕ} (h : server s k = some s') : Effect s s' := by
  unfold server at h
  cases hpc : s.server k with
  | start | setQuitHandler | print v | close =>
    rw [hpc] at h
    cases h
    exact .move k s.name _ (.inr (by rw [hpc]; rfl)) (.inl rfl)
  | unlink =>
    rw [hpc] at h
    cases h
    exact .move k none _ (.inr (by rw [hpc]; rfl)) (.inr rfl)
  | create =>
    rw [hpc] at h
    cases hname : s.name with
    | some l =>
      rw [hname] at h
      cases h
      exact .move k (some l) _ (.inl rfl) (.inl hname.symm)
    | none =>
      rw [hname] at h
      cases h
      exact .create k hpc hname
  | getvalue =>
    rw [hpc] at h
    obtain ⟨v, -, rfl⟩ := Option.map_eq_some_iff.mp h
    exact .move k s.name _ (.inr (by rw [hpc]; rfl)) (.inl rfl)
  | cleanupUnlink =>
    rw [hpc] at h
    cases h
    exact .move k none _ (.inl rfl) (.inr rfl)
  | exited =>
    rw [hpc] at h
    cases h

theorem interrupt_effect {s s' : State ι} {k : ℕ} (h : interrupt s k = some s') :
    Effect s s' := by
  unfold interrupt at h
  cases hpc : s.server k with
  | unlink | create | setQuitHandler =>
    rw [hpc] at h
    cases h
    exact .move k s.name _ (.inl rfl) (.inl rfl)
  | getvalue | print v =>
    rw [hpc] at h
    cases h
    exact .move k s.name _ (.inr (by rw [hpc]; rfl)) (.inl rfl)
  | start | close | cleanupUnlink | exited =>
    rw [hpc] at h
    cases h

/-- A step of the main thread of the client `p`, with what it has found. -/
inductive MainStep [DecidableEq ι] (s : State ι) (p : ι) : State ι → Prop
  | inputOver : (s.process p).main = .getchar → (s.process p).input = [] →
      MainStep s p { s with process := update s.process p { s.process p with main := .exited } }
  | read (c : Char) (input : List Char) : (s.process p).main = .getchar →
      (s.process p).input = c :: input → MainStep s p { s with
        process := update s.process p { s.process p with
          input := input
          main := if c = '\n' then .spawn 0 else .getchar } }
  | spawn (j : ℕ) : (s.process p).main = .spawn j → j < THREAD_BURST → MainStep s p { s with
      process := update s.process p { s.process p with main := .spawn (j + 1) }
      threads := s.threads ++ [⟨p, .opening⟩] }
  | spawned (j : ℕ) : (s.process p).main = .spawn j → ¬ j < THREAD_BURST →
      MainStep s p { s with process := update s.process p { s.process p with main := .getchar } }

theorem main_step [DecidableEq ι] {s s' : State ι} {p : ι} (h : main s p = some s') :
    MainStep s p s' := by
  unfold main at h
  split_ifs at h
  cases hpc : (s.process p).main with
  | getchar =>
    rw [hpc] at h
    cases hinput : (s.process p).input with
    | nil =>
      rw [hinput] at h
      cases h
      exact .inputOver hpc hinput
    | cons c input =>
      rw [hinput] at h
      cases h
      exact .read c input hpc hinput
  | spawn j =>
    rw [hpc] at h
    simp only at h
    split_ifs at h with hj
    · cases h
      exact .spawn j hpc hj
    · cases h
      exact .spawned j hpc hj
  | exited =>
    rw [hpc] at h
    cases h

/-- A step of the thread `t`, which has the number `i`. -/
inductive ClientStep [DecidableEq ι] (s : State ι) (i : ℕ) (t : Thread ι) : State ι → Prop
  | opened (k : ℕ) : t.pc = .opening → s.name = some k →
      ClientStep s i t { s with threads := s.threads.set i { t with pc := .wait k } }
  | noName : t.pc = .opening → s.name = none → ClientStep s i t { s with
      process := update s.process t.process { s.process t.process with alive := false } }
  | acquire (k v : ℕ) : t.pc = .wait k → s.value k = some (v + 1) → ClientStep s i t { s with
      value := update s.value k (some v)
      threads := s.threads.set i { t with pc := .working k } }
  | release (k v : ℕ) : t.pc = .working k → s.value k = some v → ClientStep s i t { s with
      value := update s.value k (some (v + 1))
      threads := s.threads.set i { t with pc := .close k } }
  | closed (k : ℕ) : t.pc = .close k →
      ClientStep s i t { s with threads := s.threads.set i { t with pc := .done } }

theorem client_step [DecidableEq ι] {s s' : State ι} {i : ℕ} (h : client s i = some s') :
    ∃ t, s.threads[i]? = some t ∧ (s.process t.process).alive = true ∧ ClientStep s i t s' := by
  obtain ⟨t, ht, hstep⟩ := Option.bind_eq_some_iff.mp h
  split_ifs at hstep with halive
  refine ⟨t, ht, halive, ?_⟩
  cases hpc : t.pc with
  | opening =>
    rw [hpc] at hstep
    cases hname : s.name with
    | some k =>
      rw [hname] at hstep
      cases hstep
      rw [← hname]
      exact .opened k hpc hname
    | none =>
      rw [hname] at hstep
      cases hstep
      rw [← hname]
      exact .noName hpc hname
  | wait k =>
    rw [hpc] at hstep
    simp only at hstep
    split at hstep
    · next v hvalue =>
      cases hstep
      exact .acquire k v hpc hvalue
    · cases hstep
    · cases hstep
  | working k =>
    rw [hpc] at hstep
    obtain ⟨v, hvalue, rfl⟩ := Option.map_eq_some_iff.mp hstep
    exact .release k v hpc hvalue
  | close k =>
    rw [hpc] at hstep
    cases hstep
    exact .closed k hpc
  | done =>
    rw [hpc] at hstep
    cases hstep

theorem main_effect [DecidableEq ι] {s s' : State ι} {p : ι} (h : main s p = some s') :
    Effect s s' := by
  cases main_step h with
  | inputOver _ _ | read c input _ _ | spawned j _ _ => exact .process _
  | spawn j _ _ => exact .spawn _ p

theorem client_effect [DecidableEq ι] {s s' : State ι} {i : ℕ} (h : client s i = some s') :
    Effect s s' := by
  obtain ⟨t, ht, -, hstep⟩ := client_step h
  cases hstep with
  | opened k hpc hname => exact .opened i t k ht hpc hname
  | noName _ _ => exact .process _
  | acquire k v hpc hvalue => exact .acquire i t k v ht hpc hvalue
  | release k v hpc hvalue => exact .release i t k v ht hpc hvalue
  | closed k hpc => exact .closed i t k ht hpc

theorem step_effect [DecidableEq ι] {s s' : State ι} {a : Agent ι} (h : step s a = some s') :
    Effect s s' := by
  cases a with
  | server k => exact server_effect h
  | interrupt k => exact interrupt_effect h
  | main p => exact main_effect h
  | client i => exact client_effect h

end Steps

/-! ### The account of each semaphore -/

section Inv

variable {ι : Type*}

/-- The value of a semaphore and the resources taken through it make `NUM_RESOURCES`; what
has not been created, nobody has opened. -/
structure Inv (s : State ι) : Prop where
  balance : ∀ k v, s.value k = some v → v + taken s k = NUM_RESOURCES
  name : ∀ k, s.value k = none → s.name ≠ some k
  opened : ∀ k, s.value k = none → ∀ t ∈ s.threads, t.pc.semaphore ≠ some k
  created : ∀ k b, (s.server k).created = some b → (s.value k).isSome = b

theorem inv_start (inputs : ι → List Char) : Inv (start inputs) where
  balance _ _ h := by cases h
  name _ _ := nofun
  opened _ _ _ ht := absurd ht List.not_mem_nil
  created _ _ h := by
    cases h
    rfl

/-- Counting in a list over which one element changes. -/
theorem countP_set_add {α : Type*} {f : α → Bool} {l : List α} {i : ℕ} {a : α} (b : α)
    (h : l[i]? = some a) :
    (l.set i b).countP f + (f a).toNat = l.countP f + (f b).toNat := by
  induction l generalizing i with
  | nil => cases h
  | cons c l ih =>
    cases i with
    | zero =>
      cases h
      rw [List.set_cons_zero, List.countP_cons, List.countP_cons]
      cases f a <;> cases f b <;> simp
    | succ i =>
      have htail := ih h
      rw [List.set_cons_succ, List.countP_cons, List.countP_cons]
      omega

/-- A semaphore that nobody has opened has not been taken. -/
theorem Inv.taken_eq_zero {s : State ι} (hs : Inv s) {k : ℕ} (h : s.value k = none) :
    taken s k = 0 := by
  refine List.countP_eq_zero.mpr fun t ht hholds => hs.opened k h t ht ?_
  cases hpc : t.pc with
  | working l =>
    rw [hpc] at hholds
    exact congrArg some (beq_iff_eq.mp hholds)
  | opening | wait l | close l | done =>
    rw [hpc] at hholds
    cases hholds

theorem eq_none_of_update {value : ℕ → Option ℕ} {k l w : ℕ}
    (h : update value k (some w) l = none) : l ≠ k ∧ value l = none := by
  rcases eq_or_ne l k with rfl | hne
  · rw [Function.update_self] at h
    cases h
  · exact ⟨hne, (Function.update_of_ne hne _ _).symm.trans h⟩

/-- The thread `i` moves on, on the semaphore `k`: what changes is its value and its account. -/
theorem Inv.set {s : State ι} (hs : Inv s) {i k v w : ℕ} {t : Thread ι} {pc : ClientPc}
    (ht : s.threads[i]? = some t) (hv : s.value k = some v)
    (hpc : ∀ l, pc.semaphore = some l → l = k)
    (hother : ∀ l, l ≠ k → pc.holds l = t.pc.holds l)
    (hsum : w + (pc.holds k).toNat = v + (t.pc.holds k).toNat) :
    Inv { s with
      value := update s.value k (some w)
      threads := s.threads.set i { t with pc := pc } } := by
  refine ⟨?_, fun l hl => hs.name l (eq_none_of_update hl).2, fun l hl t' ht' => ?_,
    fun l b hb => ?_⟩
  · intro l u hu
    have hcount : taken { s with
        value := update s.value k (some w)
        threads := s.threads.set i { t with pc := pc } } l + (t.pc.holds l).toNat
        = taken s l + (pc.holds l).toNat :=
      countP_set_add (f := fun t : Thread ι => t.pc.holds l) { t with pc := pc } ht
    rcases eq_or_ne l k with rfl | hne
    · have hbalance := hs.balance l v hv
      obtain rfl : w = u := Option.some.inj ((Function.update_self l _ _).symm.trans hu)
      omega
    · have hbalance := hs.balance l u ((Function.update_of_ne hne _ _).symm.trans hu)
      rw [hother l hne] at hcount
      omega
  · obtain ⟨hne, hnone⟩ := eq_none_of_update hl
    rcases List.mem_or_eq_of_mem_set ht' with hmem | rfl
    · exact hs.opened l hnone t' hmem
    · exact fun hsem => hne (hpc l hsem)
  · rw [← hs.created l b hb]
    show (update s.value k (some w) l).isSome = _
    rcases eq_or_ne l k with rfl | hne
    · rw [Function.update_self, hv]
      rfl
    · rw [Function.update_of_ne hne]

/-- The thread `i` moves on and leaves its semaphore `k` as it is. -/
theorem Inv.set_pc {s : State ι} (hs : Inv s) {i k v : ℕ} {t : Thread ι} {pc : ClientPc}
    (ht : s.threads[i]? = some t) (hv : s.value k = some v)
    (hpc : ∀ l, pc.semaphore = some l → l = k) (hholds : ∀ l, pc.holds l = t.pc.holds l) :
    Inv { s with threads := s.threads.set i { t with pc := pc } } := by
  have hset := hs.set ht hv hpc (fun l _ => hholds l) (w := v) (by rw [hholds])
  rwa [← hv, Function.update_eq_self] at hset

/-- The semaphore that a thread has opened exists. -/
theorem Inv.exists_value {s : State ι} (hs : Inv s) {i k : ℕ} {t : Thread ι}
    (ht : s.threads[i]? = some t) (hk : t.pc.semaphore = some k) : ∃ v, s.value k = some v :=
  Option.ne_none_iff_exists'.mp fun hnone => hs.opened k hnone t (List.mem_of_getElem? ht) hk

theorem Inv.step [DecidableEq ι] {s s' : State ι} {a : Agent ι} (hs : Inv s)
    (h : step s a = some s') : Inv s' := by
  cases step_effect h with
  | move k name pc hpc hname =>
    refine ⟨hs.balance, fun l hl => ?_, hs.opened, ?_⟩
    · rcases hname with rfl | rfl
      · exact hs.name l hl
      · exact nofun
    · refine (Function.forall_update_iff s.server fun l pc =>
        ∀ b, pc.created = some b → (s.value l).isSome = b).mpr ⟨fun b hb => ?_,
          fun l _ => hs.created l⟩
      rcases hpc with hnone | hsame
      · rw [hnone] at hb
        cases hb
      · exact hs.created k b (hsame ▸ hb)
  | create k hpc hname =>
    have hvalue : s.value k = none := by
      have hcreated := hs.created k false (by rw [hpc]; rfl)
      exact Option.not_isSome_iff_eq_none.mp (Bool.eq_false_iff.mp hcreated)
    refine ⟨fun l u hu => ?_, fun l hl => ?_, fun l hl => hs.opened l (eq_none_of_update hl).2, ?_⟩
    · show u + taken s l = NUM_RESOURCES
      rcases eq_or_ne l k with rfl | hne
      · obtain rfl : NUM_RESOURCES = u :=
          Option.some.inj ((Function.update_self l _ _).symm.trans hu)
        rw [hs.taken_eq_zero hvalue, Nat.add_zero]
      · exact hs.balance l u ((Function.update_of_ne hne _ _).symm.trans hu)
    · exact fun heq => (eq_none_of_update hl).1 (Option.some.inj heq).symm
    · refine (Function.forall_update_iff s.server fun l pc =>
        ∀ b, pc.created = some b → (update s.value k (some NUM_RESOURCES) l).isSome = b).mpr
          ⟨fun b hb => ?_, fun l hl b hb => ?_⟩
      · cases hb
        rw [Function.update_self]
        rfl
      · rw [Function.update_of_ne hl]
        exact hs.created l b hb
  | process process => exact ⟨hs.balance, hs.name, hs.opened, hs.created⟩
  | spawn process p =>
    refine ⟨fun k v hv => ?_, hs.name, fun k hk t ht => ?_, hs.created⟩
    · rw [← hs.balance k v hv]
      show v + (s.threads ++ [(⟨p, .opening⟩ : Thread ι)]).countP (fun t => t.pc.holds k) = _
      rw [List.countP_append]
      rfl
    · rcases List.mem_append.mp ht with hmem | hnew
      · exact hs.opened k hk t hmem
      · rw [List.mem_singleton.mp hnew]
        exact nofun
  | opened i t k ht hpc hname =>
    obtain ⟨v, hv⟩ := Option.ne_none_iff_exists'.mp fun hnone => hs.name k hnone hname
    refine hs.set_pc ht hv (fun l hl => (Option.some.inj hl).symm) fun l => ?_
    rw [hpc]
    rfl
  | acquire i t k v ht hpc hvalue =>
    refine hs.set ht hvalue (fun l hl => (Option.some.inj hl).symm) (fun l hl => ?_) ?_
    · rw [hpc]
      exact beq_eq_false_iff_ne.mpr hl.symm
    · rw [hpc]
      show v + (k == k).toNat = v + 1 + 0
      rw [beq_self_eq_true]
      rfl
  | release i t k v ht hpc hvalue =>
    refine hs.set ht hvalue (fun l hl => (Option.some.inj hl).symm) (fun l hl => ?_) ?_
    · rw [hpc]
      exact (beq_eq_false_iff_ne.mpr hl.symm).symm
    · rw [hpc]
      show v + 1 + 0 = v + (k == k).toNat
      rw [beq_self_eq_true]
      rfl
  | closed i t k ht hpc =>
    obtain ⟨v, hv⟩ := hs.exists_value ht (by rw [hpc]; rfl)
    refine hs.set_pc ht hv nofun fun l => ?_
    rw [hpc]
    rfl

variable [DecidableEq ι] {inputs : ι → List Char}

theorem inv_of_reachable {s : State ι} (h : (program inputs).Reachable s) : Inv s := by
  refine h.invariant ?_ fun s a s' _ hs hstep => hs.step hstep
  rintro s rfl
  exact inv_start inputs

/-- **The limit**: at most `NUM_RESOURCES` threads hold a resource through the same semaphore,
and a server reads and prints as the number in use how many hold one through the semaphore
it has created, those included whose process exited in between. -/
theorem limit_per_semaphore {s : State ι} (h : (program inputs).Reachable s) :
    (∀ k, held s k + lost s k ≤ NUM_RESOURCES) ∧
      ∀ k, s.server k = .getvalue → ∃ v,
        server s k = some { s with server := update s.server k (.print v) } ∧
        inUse v = (held s k + lost s k : ℕ) := by
  have hs := inv_of_reachable h
  refine ⟨fun k => ?_, fun k hpc => ?_⟩
  · rw [held_add_lost]
    cases hvalue : s.value k with
    | none =>
      rw [hs.taken_eq_zero hvalue]
      exact Nat.zero_le _
    | some v =>
      rw [← hs.balance k v hvalue]
      exact Nat.le_add_left _ v
  · obtain ⟨v, hv⟩ := Option.isSome_iff_exists.mp (hs.created k true (by rw [hpc]; rfl))
    refine ⟨v, ?_, ?_⟩
    · simp only [server, hpc, hv, Option.map_some]
    · rw [held_add_lost, inUse, ← hs.balance k v hv]
      omega

/-! ### Restarts -/

/-- The first steps of the server `k`, up to its first `sem_getvalue`. -/
def serve (k : ℕ) : List (Agent ι) := List.replicate 4 (.server k)

/-- A thread opens the name and waits. -/
def acquire (i : ℕ) : List (Agent ι) := [.client i, .client i]

/-- One burst of one client: three threads hold the resources of the first server, which is
then shut down, and the other two get theirs from the next one, which prints 2. -/
theorem restart_exceeds : ∃ s, (program fun _ : Unit => ['\n']).Reachable s ∧
    NUM_RESOURCES < holding s ∧ s.server 1 = .getvalue ∧ ∃ v,
      server s 1 = some { s with server := update s.server 1 (.print v) } ∧
      inUse v ≠ holding s := by
  have hrun : ∃ s, (program fun _ : Unit => ['\n']).run (start fun _ => ['\n'])
      (serve 0 ++ List.replicate 7 (.main ()) ++ acquire 0 ++ acquire 1 ++ acquire 2
        ++ [.interrupt 0, .server 0, .server 0] ++ serve 1 ++ acquire 3 ++ acquire 4) = some s ∧
      holding s = 5 ∧ s.server 1 = .getvalue ∧ s.value 1 = some 1 := ⟨_, rfl, rfl, rfl, rfl⟩
  obtain ⟨s, hs, hholding, hpc, hvalue⟩ := hrun
  refine ⟨s, .run (.init rfl) hs, by rw [hholding]; decide, hpc, 1, ?_, by rw [hholding]; decide⟩
  simp only [server, hpc, hvalue, Option.map_some]

/-- While the second server is about to create its semaphore there is no name: a thread that
opens it then ends its process, and the resource that another thread of this process holds
remains in the account of the first server. -/
theorem exit_keeps_resource : ∃ s, (program fun _ : Unit => ['\n']).Reachable s ∧
    holding s = 0 ∧ held s 0 + lost s 0 ≤ NUM_RESOURCES ∧ ∃ v,
      server s 0 = some { s with server := update s.server 0 (.print v) } ∧ inUse v = 1 := by
  have hrun : ∃ s, (program fun _ : Unit => ['\n']).run (start fun _ => ['\n'])
      (serve 0 ++ List.replicate 7 (.main ()) ++ acquire 0
        ++ [.server 1, .server 1, .client 1]) = some s ∧
      holding s = 0 ∧ held s 0 + lost s 0 = 1 ∧ s.server 0 = .getvalue :=
    ⟨_, rfl, rfl, rfl, rfl⟩
  obtain ⟨s, hs, hholding, htaken, hpc⟩ := hrun
  have hlimit := limit_per_semaphore (.run (.init rfl) hs)
  obtain ⟨v, hstep, huse⟩ := hlimit.2 0 hpc
  rw [htaken] at huse
  exact ⟨s, .run (.init rfl) hs, hholding, hlimit.1 0, v, hstep, huse⟩

end Inv

end NamedScheduler
