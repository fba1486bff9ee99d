/-
The counter of the scheduler of Lab02.

A client decrements `ACTIVE_THREADS` between a wait and a post on `sem_exit`, which is to let in
one client at a time; but the semaphore starts at `THREAD_BURST`.

* `Sound` — at most one client is in the section, and when there is none, no decrement of those
  that have been there is lost;
* `OneByOne` — a schedule in which the clients get through their last turns one by one;
* `sound_iff` — all runs on an input are sound exactly if it asks for no client, and a run is
  sound exactly if its schedule is of this kind;
* `lost_decrement` — two clients in the section, and a decrement of two that is lost.
-/
import SistemiDiCalcolo.BurstSchedulerRuns

open Function (update)

namespace BurstScheduler

/-- 1 between `sem_wait(&sem_exit)` and `sem_post(&sem_exit)`. -/
def ClientPc.inside : ClientPc → ℕ
  | .loadActive | .storeActive _ | .postExit => 1
  | _ => 0

/-- 1 once the client has completed the section. -/
def ClientPc.completed : ClientPc → ℕ
  | .done => 1
  | _ => 0

variable {n : ℕ}

/-- The section is exclusive, and no decrement is lost. -/
structure Sound (s : State n) : Prop where
  exclusive : tally ClientPc.inside s.client ≤ 1
  counted : tally ClientPc.inside s.client = 0 → s.shared.activeThreads
    = BitVec.ofNat 32 THREAD_BURST - BitVec.ofNat 32 (tally ClientPc.completed s.client)

/-- The turns that a client has before its `sem_wait(&sem_exit)`, and up to its post. -/
def entryTurn : ℕ := 12

def exitTurn : ℕ := 16

/-- A schedule in which a client begins with the section only when each of the others has not come
to it or is through, by the turns they have had. -/
def OneByOne (ts : List (Agent n)) : Prop :=
  ∀ i < ts.length, ∀ k, ts[i]? = some (.client k) → (ts.take i).count (.client k) = entryTurn →
    ∀ j, (ts.take i).count (.client j) ≤ entryTurn ∨ exitTurn ≤ (ts.take i).count (.client j)

instance (ts : List (Agent n)) : Decidable (OneByOne ts) :=
  inferInstanceAs (Decidable (∀ i, i < ts.length → _))

/-! ### The section -/

/-- What a step of a client does to the semaphore of the section. -/
inductive ExitStep (exit : Option ℕ) : ClientPc → ClientPc → Option ℕ → Prop
  | other {pc pc' : ClientPc} : pc'.inside = pc.inside → pc ≠ .waitExit → ExitStep exit pc pc' exit
  | enter (v : ℕ) : exit = some (v + 1) → ExitStep exit .waitExit .loadActive (some v)
  | leave (v : ℕ) : exit = some v → ExitStep exit .postExit .done (some (v + 1))

theorem semWait_eq_some {sem sem' : Option ℕ} (h : semWait sem = some sem') :
    ∃ v, sem = some (v + 1) ∧ sem' = some v := by
  match sem, h with
  | some (v + 1), rfl => exact ⟨v, rfl, rfl⟩

theorem semPost_eq_some {sem sem' : Option ℕ} (h : semPost sem = some sem') :
    ∃ v, sem = some v ∧ sem' = some (v + 1) := by
  match sem, h with
  | some v, rfl => exact ⟨v, rfl, rfl⟩

theorem client_exit_step {g g' : Shared} {pc pc' : ClientPc} (h : client g pc = some (g', pc')) :
    ExitStep g.semExit pc pc' g'.semExit := by
  cases pc with
  | absent | done => cases h
  | first i | second i =>
    rw [client] at h
    split_ifs at h
    · obtain ⟨sem, -, heq⟩ := Option.map_eq_some_iff.mp h
      cases heq
      exact .other rfl ClientPc.noConfusion
    · cases h
      exact .other rfl ClientPc.noConfusion
  | firstWorking i | secondWorking i =>
    obtain ⟨sem, -, heq⟩ := Option.map_eq_some_iff.mp h
    cases heq
    exact .other rfl ClientPc.noConfusion
  | loadActive | storeActive x =>
    cases h
    exact .other rfl ClientPc.noConfusion
  | waitExit =>
    obtain ⟨sem, hsem, heq⟩ := Option.map_eq_some_iff.mp h
    cases heq
    obtain ⟨v, hexit, rfl⟩ := semWait_eq_some hsem
    exact .enter v hexit
  | postExit =>
    obtain ⟨sem, hsem, heq⟩ := Option.map_eq_some_iff.mp h
    cases heq
    obtain ⟨v, hexit, rfl⟩ := semPost_eq_some hsem
    exact .leave v hexit

theorem inside_create {s : State n} (hs : Created s) (h : s.threadId < n) :
    tally ClientPc.inside (update s.client ⟨s.threadId, h⟩ (.first 0))
      = tally ClientPc.inside s.client := by
  have hin := tally_update ClientPc.inside s.client ⟨s.threadId, h⟩ (.first 0)
  rw [hs.spawned.eq_absent h] at hin
  exact Nat.add_right_cancel hin

/-- Nobody is in the section when a client comes to it. -/
def Alone (s : State n) : Agent n → Prop
  | .main => True
  | .client k => s.client k = .waitExit → tally ClientPc.inside s.client = 0

/-- What holds as long as clients come to an empty section. -/
structure Exclusive (s : State n) : Prop where
  created : Created s
  counted : Counted s
  sole : tally ClientPc.inside s.client ≤ 1

theorem exclusive_start {input : List Char} :
    Exclusive (start input : State (THREAD_BURST * bursts input)) := by
  have hzero : tally ClientPc.inside
      (start input : State (THREAD_BURST * bursts input)).client = 0 :=
    tally_eq_zero.mpr fun _ => rfl
  exact ⟨created_start, counted_start, hzero.le.trans (Nat.zero_le 1)⟩

/-- With nobody in the section, the clients that have decremented the counter are those that have
completed the section. -/
theorem decremented_eq_completed {s : State n} (h : tally ClientPc.inside s.client = 0) :
    tally ClientPc.decremented s.client = tally ClientPc.completed s.client := by
  refine Finset.sum_congr rfl fun k _ => ?_
  have hout := tally_eq_zero.mp h k
  cases hk : s.client k with
  | postExit =>
    rw [hk] at hout
    cases hout
  | absent | first i | firstWorking i | second i | secondWorking i | waitExit | loadActive
  | storeActive x | done => rfl

theorem Exclusive.sound {s : State n} (hs : Exclusive s) : Sound s := by
  refine ⟨hs.sole, fun hout => ?_⟩
  have hactive := hs.counted.active
  rw [decremented_eq_completed hout] at hactive
  exact eq_sub_of_add_eq hactive

/-- Two clients in the section are one. -/
theorem Exclusive.separate {s : State n} (hs : Exclusive s) (t : Agent n) : Separate s t := by
  cases t with
  | main => trivial
  | client k =>
    intro hk j hj
    by_contra hstoring
    have hkin : (s.client k).inside = 1 := by rw [hk]; rfl
    have hjin : (s.client j).inside = 1 := by
      cases hpc : s.client j with
      | storeActive x => rfl
      | absent | first i | firstWorking i | second i | secondWorking i | waitExit | loadActive
      | postExit | done =>
        rw [hpc] at hstoring
        exact absurd rfl hstoring
    exact hj (tally_sole hs.sole hjin hkin)

theorem Exclusive.step {s s' : State n} {t : Agent n} (hs : Exclusive s) (halone : Alone s t)
    (h : step s t = some s') : Exclusive s' := by
  refine ⟨hs.created.step h, ?_, ?_⟩
  · cases t with
    | main => exact hs.counted.main hs.created (main_step h)
    | client k =>
      obtain ⟨⟨g, pc⟩, hstep, rfl⟩ := Option.map_eq_some_iff.mp h
      exact hs.counted.client (hs.separate (.client k)) (client_step hstep).1
  · cases t with
    | main =>
      cases main_step h with
      | create i hlt hpc hi =>
        show tally ClientPc.inside (update s.client ⟨s.threadId, hlt⟩ (.first 0)) ≤ 1
        rw [inside_create hs.created hlt]
        exact hs.sole
      | inputOver _ _ | skip _ _ _ _ _ | burst _ _ _ | burstOver _ _ _ | leave _ _ | spin _ _
      | enter _ _ _ | cleanUp _ _ _ _ _ => exact hs.sole
    | client k =>
      obtain ⟨⟨g, pc⟩, hstep, rfl⟩ := Option.map_eq_some_iff.mp h
      have hin := tally_update ClientPc.inside s.client k pc
      have hexit := client_exit_step hstep
      show tally ClientPc.inside (update s.client k pc) ≤ 1
      generalize hk : s.client k = pc₀ at hexit hin
      generalize g.semExit = exit at hexit
      -- who enters finds the section empty
      cases hexit with
      | other hsame _ =>
        rw [hsame] at hin
        exact (Nat.add_right_cancel hin).le.trans hs.sole
      | enter v _ =>
        have hout := halone hk
        have hone : tally ClientPc.inside (update s.client k .loadActive) + 0
            = tally ClientPc.inside s.client + 1 := hin
        omega
      | leave v _ =>
        have hone : tally ClientPc.inside (update s.client k .done) + 1
            = tally ClientPc.inside s.client + 0 := hin
        have hsole := hs.sole
        omega

/-- If the section is exclusive after a client has entered, it was empty. -/
theorem alone_of_sound {s s' : State n} {t : Agent n} (h : step s t = some s')
    (hsound : Sound s') : Alone s t := by
  cases t with
  | main => trivial
  | client k =>
    intro hk
    obtain ⟨⟨g, pc⟩, hstep, rfl⟩ := Option.map_eq_some_iff.mp h
    have hin := tally_update ClientPc.inside s.client k pc
    have hexit := client_exit_step hstep
    have hsole : tally ClientPc.inside (update s.client k pc) ≤ 1 := hsound.exclusive
    rw [hk] at hexit hin
    generalize g.semExit = exit at hexit
    cases hexit with
    | other _ hne => exact absurd rfl hne
    | enter v _ =>
      have hone : tally ClientPc.inside (update s.client k .loadActive) + 0
          = tally ClientPc.inside s.client + 1 := hin
      omega

/-- In a run the section is exclusive, and no decrement is lost, exactly if clients come to an
empty section only. -/
theorem sound_iff_along {input : List Char} {ts : List (Agent (THREAD_BURST * bursts input))}
    {s : State (THREAD_BURST * bursts input)} (h : (program input).run (start input) ts = some s) :
    (∀ us u, us <+: ts → (program input).run (start input) us = some u → Sound u) ↔
      (program input).Along Alone (start input) ts :=
  Machine.along_iff_prefixes (J := Exclusive) (fun _ _ _ hs halone hstep => hs.step halone hstep)
    (fun _ hs => hs.sound) (fun _ _ _ _ hstep hsound => alone_of_sound hstep hsound)
    exclusive_start h

/-! ### The turns of a client -/

/-- The turns that a client has had. -/
def ClientPc.turns : ClientPc → ℕ
  | .absent => 0
  | .first i => i
  | .firstWorking i => i + 1
  | .second i => 5 + 2 * i
  | .secondWorking i => 6 + 2 * i
  | .waitExit => entryTurn
  | .loadActive => entryTurn + 1
  | .storeActive _ => entryTurn + 2
  | .postExit => entryTurn + 3
  | .done => exitTurn

/-- The counters of the two loops. -/
def ClientPc.InLoop : ClientPc → Prop
  | .first i => i = 0 ∨ i = 2 ∨ i = 4
  | .firstWorking i => i = 0 ∨ i = 2
  | .second i => i ≤ NUM_TASKS
  | .secondWorking i => i < NUM_TASKS
  | _ => True

theorem client_turns {g g' : Shared} {pc pc' : ClientPc} (h : client g pc = some (g', pc'))
    (hpc : pc.InLoop) : pc'.InLoop ∧ pc'.turns = pc.turns + 1 := by
  -- the counter goes up by 2 in the first loop and by 1 in the second
  cases pc with
  | absent | done => cases h
  | first i =>
    have hloop : i = 0 ∨ i = 2 ∨ i = 4 := hpc
    rw [client] at h
    split_ifs at h with hi
    · obtain ⟨sem, -, heq⟩ := Option.map_eq_some_iff.mp h
      cases heq
      have hlt : i < 3 := hi
      have hnext : i = 0 ∨ i = 2 := by omega
      exact ⟨hnext, rfl⟩
    · cases h
      have hge : ¬ i < 3 := hi
      obtain rfl : i = 4 := by omega
      exact ⟨Nat.zero_le _, rfl⟩
  | firstWorking i =>
    have hloop : i = 0 ∨ i = 2 := hpc
    obtain ⟨sem, -, heq⟩ := Option.map_eq_some_iff.mp h
    cases heq
    have hnext : i + 2 = 0 ∨ i + 2 = 2 ∨ i + 2 = 4 := by omega
    exact ⟨hnext, rfl⟩
  | second i =>
    have hloop : i ≤ 3 := hpc
    rw [client] at h
    split_ifs at h with hi
    · obtain ⟨sem, -, heq⟩ := Option.map_eq_some_iff.mp h
      cases heq
      have hnext : 6 + 2 * i = 5 + 2 * i + 1 := by omega
      exact ⟨hi, hnext⟩
    · cases h
      have hge : ¬ i < 3 := hi
      obtain rfl : i = 3 := by omega
      exact ⟨trivial, rfl⟩
  | secondWorking i =>
    obtain ⟨sem, -, heq⟩ := Option.map_eq_some_iff.mp h
    cases heq
    have hnext : 5 + 2 * (i + 1) = 6 + 2 * i + 1 := by omega
    exact ⟨hpc, hnext⟩
  | waitExit | postExit =>
    obtain ⟨sem, -, heq⟩ := Option.map_eq_some_iff.mp h
    cases heq
    exact ⟨trivial, rfl⟩
  | loadActive | storeActive x =>
    cases h
    exact ⟨trivial, rfl⟩

/-- In its loops a client has had fewer turns than it has at the section. -/
theorem turns_lt_entry {pc : ClientPc} (hpc : pc.InLoop) :
    pc.turns < entryTurn ↔ ¬ pc.Finished := by
  cases pc with
  | absent => exact iff_of_true (by decide) id
  | first i =>
    have hloop : i = 0 ∨ i = 2 ∨ i = 4 := hpc
    have hlt : i < 12 := by omega
    exact iff_of_true hlt id
  | firstWorking i =>
    have hloop : i = 0 ∨ i = 2 := hpc
    have hlt : i + 1 < 12 := by omega
    exact iff_of_true hlt id
  | second i =>
    have hloop : i ≤ 3 := hpc
    have hlt : 5 + 2 * i < 12 := by omega
    exact iff_of_true hlt id
  | secondWorking i =>
    have hloop : i < 3 := hpc
    have hlt : 6 + 2 * i < 12 := by omega
    exact iff_of_true hlt id
  | waitExit => exact iff_of_false (Nat.lt_irrefl _) fun h => h trivial
  | loadActive | postExit | done => exact iff_of_false (by decide) fun h => h trivial
  | storeActive x =>
    have hge : ¬ entryTurn + 2 < entryTurn := by decide
    exact iff_of_false hge fun h => h trivial

theorem eq_waitExit_iff {pc : ClientPc} (hpc : pc.InLoop) :
    pc = .waitExit ↔ pc.turns = entryTurn := by
  have hlt := turns_lt_entry hpc
  cases pc with
  | waitExit => exact iff_of_true rfl rfl
  | absent | first i | firstWorking i | second i | secondWorking i =>
    exact iff_of_false ClientPc.noConfusion (hlt.mpr id).ne
  | loadActive | storeActive x | postExit | done =>
    refine iff_of_false ClientPc.noConfusion ?_
    simp [ClientPc.turns, entryTurn, exitTurn]

theorem inside_eq_zero_iff {pc : ClientPc} (hpc : pc.InLoop) :
    pc.inside = 0 ↔ pc.turns ≤ entryTurn ∨ exitTurn ≤ pc.turns := by
  have hlt := turns_lt_entry hpc
  cases pc with
  | absent | first i | firstWorking i | second i | secondWorking i =>
    exact iff_of_true rfl (.inl (hlt.mpr id).le)
  | waitExit => exact iff_of_true rfl (.inl le_rfl)
  | loadActive | storeActive x | postExit =>
    exact iff_of_false one_ne_zero (by simp [ClientPc.turns, entryTurn, exitTurn])
  | done => exact iff_of_true rfl (.inr le_rfl)

/-- The turns of all clients in a schedule. -/
structure Turns (us : List (Agent n)) (s : State n) : Prop where
  created : Created s
  inLoop : ∀ k, (s.client k).InLoop
  turns : ∀ k, (s.client k).turns = us.count (.client k)

theorem turns_start {input : List Char} :
    Turns [] (start input : State (THREAD_BURST * bursts input)) :=
  ⟨created_start, fun _ => trivial, fun _ => rfl⟩

/-- A turn of `main` creates clients that have had none. -/
theorem Turns.main {us : List (Agent n)} {s s' : State n} (hs : Turns us s)
    (h : BurstScheduler.main s = some s') : Turns (us ++ [.main]) s' := by
  have hcreated : Created s' := hs.created.main (main_step h)
  have hcount : ∀ k, (us ++ [Agent.main]).count (Agent.client k) = us.count (.client k) := by
    intro k
    rw [List.count_append, List.count_singleton]
    rfl
  cases main_step h with
  | create i hlt hpc hi =>
    have habsent := hs.created.spawned.eq_absent hlt
    have hzero := hs.turns ⟨s.threadId, hlt⟩
    rw [habsent] at hzero
    refine ⟨hcreated, ?_, ?_⟩
    · exact (Function.forall_update_iff s.client fun _ pc => pc.InLoop).mpr
        ⟨.inl rfl, fun l _ => hs.inLoop l⟩
    · refine (Function.forall_update_iff s.client fun k pc => pc.turns = _).mpr
        ⟨?_, fun l _ => (hs.turns l).trans (hcount l).symm⟩
      exact hzero.trans (hcount _).symm
  | inputOver _ _ | skip _ _ _ _ _ | burst _ _ _ | burstOver _ _ _ | enter _ _ _ | leave _ _
  | cleanUp _ _ _ _ _ | spin _ _ =>
    exact ⟨hcreated, hs.inLoop, fun k => (hs.turns k).trans (hcount k).symm⟩

theorem Turns.step {us : List (Agent n)} {s s' : State n} {t : Agent n} (hs : Turns us s)
    (h : step s t = some s') : Turns (us ++ [t]) s' := by
  cases t with
  | main => exact hs.main h
  | client k =>
    refine ⟨hs.created.step h, ?_, ?_⟩
    · obtain ⟨⟨g, pc⟩, hstep, rfl⟩ := Option.map_eq_some_iff.mp h
      exact (Function.forall_update_iff s.client fun _ pc => pc.InLoop).mpr
        ⟨(client_turns hstep (hs.inLoop k)).1, fun l _ => hs.inLoop l⟩
    · obtain ⟨⟨g, pc⟩, hstep, rfl⟩ := Option.map_eq_some_iff.mp h
      refine (Function.forall_update_iff s.client fun l pc => pc.turns = _).mpr ⟨?_, fun l hl => ?_⟩
      · rw [(client_turns hstep (hs.inLoop k)).2, hs.turns, List.count_append,
          List.count_singleton_self]
      · have hne : (Agent.client k : Agent n) ≠ .client l :=
          fun heq => hl (Agent.client.inj heq).symm
        rw [hs.turns, List.count_append, List.count_singleton, beq_eq_false_iff_ne.mpr hne]
        rfl

theorem turns_of_run {input : List Char} {us : List (Agent (THREAD_BURST * bursts input))}
    {u : State (THREAD_BURST * bursts input)} (h : (program input).run (start input) us = some u) :
    Turns us u := by
  induction us using List.reverseRecOn generalizing u with
  | nil =>
    obtain rfl := Option.some.inj h
    exact turns_start
  | append_singleton us t ih =>
    obtain ⟨v, hv, hu⟩ := Machine.run_append_eq_some.mp h
    obtain ⟨w, hw, hlast⟩ := Machine.run_cons_eq_some.mp hu
    obtain rfl := Option.some.inj hlast
    exact (ih hv).step hw

/-- In a state the section is empty when a client comes to it exactly if the turns say so. -/
theorem Turns.alone_iff {us : List (Agent n)} {s : State n} (hs : Turns us s) (k : Fin n) :
    Alone s (.client k) ↔ (us.count (.client k) = entryTurn →
      ∀ j, us.count (.client j) ≤ entryTurn ∨ exitTurn ≤ us.count (.client j)) := by
  have hempty : tally ClientPc.inside s.client = 0 ↔
      ∀ j, us.count (.client j) ≤ entryTurn ∨ exitTurn ≤ us.count (.client j) := by
    rw [tally_eq_zero]
    exact forall_congr' fun j => by rw [inside_eq_zero_iff (hs.inLoop j), hs.turns]
  rw [Alone, eq_waitExit_iff (hs.inLoop k), hs.turns, hempty]

theorem along_alone_iff {input : List Char} {ts : List (Agent (THREAD_BURST * bursts input))}
    {s : State (THREAD_BURST * bursts input)} (h : (program input).run (start input) ts = some s) :
    (program input).Along Alone (start input) ts ↔ OneByOne ts := by
  rw [Machine.along_iff_forall h]
  constructor
  · intro hall i hi k hk
    obtain ⟨u, hu, -⟩ := Machine.run_append_eq_some.mp ((List.take_append_drop i ts).symm ▸ h)
    exact ((turns_of_run hu).alone_iff k).mp (hall i _ u hk hu)
  · intro hall i t u ht hu
    cases t with
    | main => trivial
    | client k =>
      exact ((turns_of_run hu).alone_iff k).mpr
        (hall i (List.getElem?_eq_some_iff.mp ht).1 k ht)

/-! ### All runs -/

theorem not_sound_of_two {s : State n} {k l : Fin n} {x y : CInt} (hkl : k ≠ l)
    (hk : s.client k = .storeActive x) (hl : s.client l = .storeActive y) : ¬ Sound s := by
  intro hs
  exact hkl (tally_sole hs.exclusive (by rw [hk]; rfl) (by rw [hl]; rfl))

/-- Two clients get to the section together. -/
theorem exists_not_sound {input : List Char} (hb : bursts input ≠ 0) :
    ∃ s, (program input).Reachable s ∧ ¬ Sound s := by
  have hn : THREAD_BURST ≤ THREAD_BURST * bursts input :=
    Nat.le_mul_of_pos_right _ (Nat.pos_of_ne_zero hb)
  let k : Fin (THREAD_BURST * bursts input) := ⟨0, lt_of_lt_of_le (by decide) hn⟩
  let l : Fin (THREAD_BURST * bursts input) := ⟨1, lt_of_lt_of_le (by decide) hn⟩
  have hkl : k ≠ l := fun h => absurd (Fin.mk.inj h) zero_ne_one
  have hspin : (program input).ReachableVia (fun _ _ => True) (spinning 4
      (BitVec.ofNat 32 THREAD_BURST) fun _ => .first 0) :=
    via_spinning rfl (fun _ => trivial) rfl rfl
  -- both load the counter before either of them stores
  have hfirst := via_load (k := k) rfl rfl (fun _ _ => trivial) hspin
  have hsecond := via_load (k := l) rfl (Function.update_of_ne hkl.symm _ _) (fun _ _ => trivial)
    hfirst
  have hk : update (update (fun _ => ClientPc.first 0) k (.storeActive 5)) l (.storeActive 5) k
      = .storeActive 5 := by
    rw [Function.update_of_ne hkl, Function.update_self]
  have hl : update (update (fun _ => ClientPc.first 0) k (.storeActive 5)) l (.storeActive 5) l
      = .storeActive 5 := Function.update_self _ _ _
  exact ⟨_, hsecond.reachable, not_sound_of_two hkl hk hl⟩

/-- **The section of `sem_exit`**: it is exclusive, and no decrement is lost, in all runs on an
input exactly if this has no newline; and in a run exactly if its schedule lets clients get
through their last turns one by one. -/
theorem sound_iff (input : List Char) :
    ((∀ s, (program input).Reachable s → Sound s) ↔ bursts input = 0) ∧
      ∀ ts s, (program input).run (start input) ts = some s →
        ((∀ us u, us <+: ts → (program input).run (start input) us = some u → Sound u) ↔
          OneByOne ts) := by
  have hrun : ∀ ts s, (program input).run (start input) ts = some s →
      ((∀ us u, us <+: ts → (program input).run (start input) us = some u → Sound u) ↔
        OneByOne ts) :=
    fun _ _ h => (sound_iff_along h).trans (along_alone_iff h)
  refine ⟨⟨fun hall => by_contra fun hb => ?_, fun hb s hs => ?_⟩, hrun⟩
  · obtain ⟨s, hs, hnot⟩ := exists_not_sound hb
    exact hnot (hall s hs)
  · -- there are no clients
    obtain ⟨_, ts, rfl, hts⟩ := Machine.reachable_iff_run.mp hs
    refine (hrun ts s hts).mpr (fun i _ k => ?_) ts s List.prefix_rfl hts
    exact absurd (k.isLt.trans_eq (by rw [hb, Nat.mul_zero])) (Nat.not_lt_zero _)

/-- Two of five clients get through the section, one after the other, while a third one is on its
way to it. -/
theorem sound_two_clients : ∃ k l m, ∃ ts s,
    ts = List.replicate 6 .main ++ List.replicate 12 (.client m) ++ List.replicate 16 (.client k)
      ++ List.replicate 16 (.client l) ∧
    (program ['\n']).run (start ['\n']) ts = some s ∧
    tally ClientPc.completed s.client = 2 ∧ s.shared.activeThreads = 3 ∧
    ∀ us u, us <+: ts → (program ['\n']).run (start ['\n']) us = some u → Sound u := by
  refine ⟨⟨0, by decide⟩, ⟨1, by decide⟩, ⟨2, by decide⟩, _, _, rfl, rfl, by decide, by decide, ?_⟩
  exact ((sound_iff ['\n']).2 _ _ rfl).mpr (by decide)

/-- Two clients are in the section; both have loaded 5, and when they are through it is 4. -/
theorem lost_decrement :
    (∃ s, (program ['\n']).Reachable s ∧ 1 < tally ClientPc.inside s.client) ∧
      ∃ s, (program ['\n']).Reachable s ∧ tally ClientPc.inside s.client = 0 ∧
        tally ClientPc.completed s.client = 2 ∧ s.shared.activeThreads = 4 := by
  have hstart : (program ['\n']).ReachableVia (fun _ _ => True) (spinning 4 5 (doneBelow 0)) :=
    via_spinning rfl (fun _ => trivial) rfl rfl
  have hne : (⟨0, by decide⟩ : Fin (THREAD_BURST * bursts ['\n'])) ≠ ⟨1, by decide⟩ := by decide
  constructor
  · have hfirst := via_load (k := ⟨0, by decide⟩) rfl rfl (fun _ _ => trivial) hstart
    have hsecond := via_load (k := ⟨1, by decide⟩) rfl rfl (fun _ _ => trivial) hfirst
    exact ⟨_, hsecond.reachable, by decide⟩
  · have htwo := via_overlap rfl (fun _ _ => trivial) hne rfl rfl hstart
    exact ⟨_, htwo.reachable, by decide, by decide, by decide⟩

end BurstScheduler
